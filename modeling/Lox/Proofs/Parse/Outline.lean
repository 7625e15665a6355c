import Lox.Source
import Lox.Proofs.Parse.Kept
import Lox.Proofs.Parse.Stream
import Lox.Proofs.Tree.Written

/-!
# Outlines of what is read

Printing is faithful: programs that are read from sources and have the same outline are equal up to
the places of their tokens, and so are expressions, unless a string or an infinite number is printed
(`unplaced_eq_of_outline_eq`).  A tree keeps the tokens it is derived from, and those of a scan have
the kind and the value of their lexemes (`Program.allWritten`).
-/

namespace Lox

/-! ### Derived trees -/

namespace Tolerant

variable {room : Nat} {ts : List Token} {bad : List Token}

theorem Derives.written {p : Precedence} {e : Expr} (h : Derives room p ts e bad)
    (ht : ∀ t ∈ ts, t.Spelled) (hv : ∀ x ∈ e.pieces, x.Legible) : e.Written := by
  induction h with
  | literal h =>
    have hlegible : Literal.Legible _ := hv _ (List.mem_singleton_self _)
    refine hlegible.plain ?_
    rintro x rfl
    obtain ⟨d, hd⟩ | ⟨s, hs⟩ := (ht _ (List.mem_singleton_self _)).literal_cases h
    · cases hd
      exact Number.not_isNaN_ofDecimal d
    · cases hs
  | false | true | nil => exact .constant (by decide)
  | var h hl => exact ⟨ht _ (List.mem_singleton_self _), h⟩
  | grouping _ _ _ _ ih => exact ih (fun t h => ht t (by simp [h])) hv
  | operand _ _ ih => exact ih ht hv
  | unary ho _ ih =>
    obtain ⟨hfirst, ht⟩ := List.forall_mem_cons.1 ht
    exact ⟨⟨hfirst, ho⟩, ih ht (List.forall_mem_cons.1 hv).2⟩
  | binary _ ho _ ihl ihr =>
    obtain ⟨htl, ht⟩ := List.forall_mem_append.1 ht
    obtain ⟨hsign, htr⟩ := List.forall_mem_cons.1 ht
    obtain ⟨hvl, hv⟩ := List.forall_mem_append.1 hv
    exact ⟨ihl htl hvl, ⟨hsign, _, ho⟩, ihr htr (List.forall_mem_cons.1 hv).2⟩
  | assign _ _ _ iht ihv =>
    obtain ⟨htl, ht⟩ := List.forall_mem_append.1 ht
    obtain ⟨hname, hv⟩ := List.forall_mem_cons.1 hv
    exact ⟨iht htl (by simpa [Expr.pieces] using hname), ihv (List.forall_mem_cons.1 ht).2 hv⟩
  | misplaced _ _ _ _ iht _ => exact iht (List.forall_mem_append.1 ht).1 hv
  | next _ _ ih => exact ih ht hv

mutual

theorem Declaration.written {room : Nat} {ts : List Token} {s : Stmt} {bad : List Token} :
    Declaration room ts s bad → (∀ t ∈ ts, t.Spelled) → (∀ x ∈ s.pieces, x.Legible) → s.Written
  | .var _ hn _, ht, _ => ⟨ht _ (by simp), hn⟩
  | .init _ hn _ h _, ht, hv =>
    ⟨⟨ht _ (by simp), hn⟩,
      h.written (fun t h => ht t (by simp [h])) (List.forall_mem_cons.1 hv).2⟩
  | .print _ h _, ht, hv => h.written (fun t h => ht t (by simp [h])) hv
  | .block _ h _, ht, hv => h.allWritten (fun t h => ht t (by simp [h])) hv
  | .expression h _ _, ht, hv => h.written (fun t h => ht t (by simp [h])) hv

theorem Program.allWritten {stop : List TokenKind} {room : Nat} {ts : List Token}
    {body : List Stmt} {bad : List Token} : Program stop room ts body bad →
    (∀ t ∈ ts, t.Spelled) → (∀ x ∈ Stmt.allPieces body, x.Legible) → Stmt.AllWritten body
  | .nil, _, _ => trivial
  | .cons h _ hs, ht, hv =>
    ⟨h.written (List.forall_mem_append.1 ht).1 (List.forall_mem_append.1 hv).1,
      hs.allWritten (List.forall_mem_append.1 ht).2 (List.forall_mem_append.1 hv).2⟩

end

end Tolerant

/-! ### Streams -/

namespace TokenStream

/-- Each token is one that some source is scanned to. -/
def Scanned (s : TokenStream) : Prop :=
  ∀ t ∈ s.toList, ∃ source, t ∈ (scan source).tokens.toList

theorem scanned_scan (source : String) : (scan source).tokens.Scanned :=
  fun _ ht => ⟨source, ht⟩

variable {s : TokenStream}

theorem Scanned.spelled (h : s.Scanned) {t : Token} (ht : t ∈ s.toList) : t.Spelled := by
  obtain ⟨source, hsource⟩ := h t ht
  exact Token.spelled_of_mem_scan hsource

theorem Scanned.closed_cursor (h : s.Scanned) : s.cursor.Closed :=
  closed_cursor_of_toList fun _ ht hk => (h.spelled ht).literal_of_eof hk

theorem Scanned.allWritten_parse (h : s.Scanned)
    (hv : ∀ x ∈ Stmt.allPieces s.parse.program, x.Legible) : Stmt.AllWritten s.parse.program := by
  obtain ⟨kept, bad, hget, -, -, hprogram⟩ := exists_kept h.closed_cursor
  refine hprogram.allWritten ?_ hv
  intro t ht
  obtain ⟨k, hk, rfl⟩ := List.mem_map.1 ht
  exact h.spelled (List.mem_of_getElem? (hget k hk))

theorem mem_toList_of_passes {ts : List Token} {d : Cursor} (h : s.cursor.Passes ts d)
    {t : Token} (ht : t ∈ ts) : t ∈ s.toList := by
  refine s.tokens_cursor_prefix.subset ?_
  rw [Cursor.tokens, h.1]
  simp [ht]

/-- An expression that is returned has been read. -/
theorem exists_run_of_parseExpression {e : Expr} (h : s.parseExpression.1 = some e) :
    ∃ d notes, Parse.expression Parse.maxNesting .default s.cursor = ⟨.ok e, d, notes⟩ := by
  rcases hrun : Parse.expression Parse.maxNesting .default s.cursor with ⟨f | e', d, notes⟩
  · have hnone : s.parseExpression.1 = none := by
      unfold parseExpression Parse.line
      rw [Parse.noting_of_error hrun]
      rfl
    rw [hnone] at h
    cases h
  · have hsome : s.parseExpression.1 = some e' := by
      unfold parseExpression Parse.line
      rw [Parse.noting_of_ok hrun]
      rfl
    obtain rfl : e' = e := Option.some.inj (hsome.symm.trans h)
    exact ⟨d, notes, rfl⟩

theorem Scanned.written_parseExpression (h : s.Scanned) {e : Expr}
    (he : s.parseExpression.1 = some e) (hv : ∀ x ∈ e.pieces, x.Legible) : e.Written := by
  obtain ⟨d, notes, hrun⟩ := exists_run_of_parseExpression he
  obtain ⟨ts, bad, hpass, hderives⟩ := Parse.derives_of_expression h.closed_cursor hrun
  exact hderives.written (fun t ht => h.spelled (mem_toList_of_passes hpass ht)) hv

end TokenStream

/-- Printing is faithful.  Programs that are read from sources, with errors or without, and have the
same outline are equal up to the places of their tokens, if neither has a string or an infinite
number in it; and so are expressions that are read from tokens of sources. -/
theorem unplaced_eq_of_outline_eq :
    (∀ (r r' : Report) (a b : String),
      (∀ x ∈ Stmt.allPieces (r.readProgram a).1, x.Legible) →
      (∀ x ∈ Stmt.allPieces (r'.readProgram b).1, x.Legible) →
      outlineProgram (r.readProgram a).1 = outlineProgram (r'.readProgram b).1 →
      (r.readProgram a).1.map (Stmt.mapTokens Token.unplaced) =
        (r'.readProgram b).1.map (Stmt.mapTokens Token.unplaced)) ∧
    ∀ (r r' : Report) (s s' : TokenStream) (e e' : Expr), s.Scanned → s'.Scanned →
      (r.parseExpression s).1 = some e → (r'.parseExpression s').1 = some e' →
      (∀ x ∈ e.pieces, x.Legible) → (∀ x ∈ e'.pieces, x.Legible) → e.outline = e'.outline →
      e.mapTokens Token.unplaced = e'.mapTokens Token.unplaced := by
  constructor
  · intro r r' a b ha hb h
    have hp : Stmt.AllWritten (r.readProgram a).1 :=
      (TokenStream.scanned_scan a).allWritten_parse ha
    have hq : Stmt.AllWritten (r'.readProgram b).1 :=
      (TokenStream.scanned_scan b).allWritten_parse hb
    exact outlineProgram_inj hp hq h
  · intro r r' s s' e e' hs hs' he he' hv hv' h
    have hw : e.Written := hs.written_parseExpression he hv
    have hw' : e'.Written := hs'.written_parseExpression he' hv'
    exact Expr.outline_inj hw hw' h

/-- A program with an empty statement and a stray character between its statements, and the sign of
a name that looks like an infinite number. -/
theorem unplaced_eq_of_outline_eq_layout :
    let p := (Report.empty.readProgram "var x = -1.5;\nprint (x == nil);").1
    let q := (Report.empty.readProgram "var x=-1.50; ; print // @\n(x==nil)@;").1
    let s := (scan "-inf").tokens
    let s' := (scan "\n- inf )").tokens
    let e : Expr := .unary ⟨⟨1, 1⟩, .dash, "-", none⟩ (.var ⟨⟨1, 2⟩, .identifier, "inf", none⟩)
    let e' : Expr := .unary ⟨⟨2, 1⟩, .dash, "-", none⟩ (.var ⟨⟨2, 3⟩, .identifier, "inf", none⟩)
    ((∀ x ∈ Stmt.allPieces p, x.Legible) ∧ (∀ x ∈ Stmt.allPieces q, x.Legible) ∧
      outlineProgram p = outlineProgram q ∧
      p.map (Stmt.mapTokens Token.unplaced) = q.map (Stmt.mapTokens Token.unplaced)) ∧
    (s.Scanned ∧ s'.Scanned ∧ (Report.empty.parseExpression s).1 = some e ∧
      (Report.empty.parseExpression s').1 = some e' ∧ (∀ x ∈ e.pieces, x.Legible) ∧
      (∀ x ∈ e'.pieces, x.Legible) ∧ e.outline = e'.outline ∧
      e.mapTokens Token.unplaced = e'.mapTokens Token.unplaced) := by
  intro p q s s' e e'
  constructor
  · have hp : ∀ x ∈ Stmt.allPieces p, x.Legible := by decide +kernel
    have hq : ∀ x ∈ Stmt.allPieces q, x.Legible := by decide +kernel
    have h : outlineProgram p = outlineProgram q := by decide +kernel
    exact ⟨hp, hq, h, unplaced_eq_of_outline_eq.1 _ _ _ _ hp hq h⟩
  · have hs : s.Scanned := TokenStream.scanned_scan _
    have hs' : s'.Scanned := TokenStream.scanned_scan _
    have he : (Report.empty.parseExpression s).1 = some e := by decide +kernel
    have he' : (Report.empty.parseExpression s').1 = some e' := by decide +kernel
    have hv : ∀ x ∈ e.pieces, x.Legible := by decide
    have hv' : ∀ x ∈ e'.pieces, x.Legible := by decide
    have h : e.outline = e'.outline := by decide +kernel
    exact ⟨hs, hs', he, he', hv, hv', h,
      unplaced_eq_of_outline_eq.2 _ _ s s' e e' hs hs' he he' hv hv' h⟩

end Lox
