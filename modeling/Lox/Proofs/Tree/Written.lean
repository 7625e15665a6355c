import Lox.Proofs.Grammar.Tolerant
import Lox.Proofs.Number
import Lox.Proofs.Scan.Spelling
import Lox.Proofs.Tree.Bracketed
import Lox.Proofs.Tree.Canonical
import Lox.Proofs.Tree.Pieces

/-!
# Trees with the same outline

An outline shows neither where the tokens stand nor what kind of part a word or a node was.  If the
tokens are spelled as a scan spells them, and no value is a string or infinite, the words and the
heads tell (`Expr.bracketed_inj`, `Stmt.bracketed_inj`): a name is no number and no keyword, an
operator has the text of its kind, and a sign with one part is a prefix.  So trees with the same
outline are equal up to the places of their tokens (`Expr.outline_inj`, `outlineProgram_inj`).
-/

namespace Lox

open Bracketed (IsWord)
open Segment (Lexeme)
open Tolerant (prefixOperators)

/-! ### Trees without places -/

/-- The token at the start of a text. -/
def Token.unplaced (t : Token) : Token :=
  { t with toPosition := .start }

/-- The tree with every token changed by `f`. -/
def Expr.mapTokens (f : Token → Token) : Expr → Expr
  | literal value => literal value
  | grouping inner => grouping (inner.mapTokens f)
  | unary operator operand => unary (f operator) (operand.mapTokens f)
  | binary left operator right => binary (left.mapTokens f) (f operator) (right.mapTokens f)
  | var name => var (f name)
  | assign name value => assign (f name) (value.mapTokens f)

namespace Stmt

mutual

def mapTokens (f : Token → Token) : Stmt → Stmt
  | expression expr => expression (expr.mapTokens f)
  | print expr => print (expr.mapTokens f)
  | varDecl name initializer => varDecl (f name) (initializer.map (Expr.mapTokens f))
  | block body => block (mapAllTokens f body)

def mapAllTokens (f : Token → Token) : List Stmt → List Stmt
  | [] => []
  | s :: ss => s.mapTokens f :: mapAllTokens f ss

end

theorem mapAllTokens_eq_map (f : Token → Token) (ss : List Stmt) :
    mapAllTokens f ss = ss.map (mapTokens f) := by
  induction ss with
  | nil => simp [mapAllTokens]
  | cons s ss ih => simp [mapAllTokens, ih]

end Stmt

/-! ### Tokens -/

namespace Token

variable {t u : Token}

/-- An identifier as a scan makes it. -/
def IsName (t : Token) : Prop :=
  t.Spelled ∧ t.kind = .identifier

theorem unplaced_eq (hk : t.kind = u.kind) (hw : t.lexeme = u.lexeme)
    (hl : t.literal = u.literal) : t.unplaced = u.unplaced := by
  simp [unplaced, hk, hw, hl]

theorem IsName.unplaced_eq (ht : t.IsName) (hu : u.IsName) (h : t.lexeme = u.lexeme) :
    t.unplaced = u.unplaced :=
  Token.unplaced_eq (ht.2.trans hu.2.symm) h
    ((ht.1.name_of_kind ht.2).2.2.trans (hu.1.name_of_kind hu.2).2.2.symm)

theorem Spelled.unplaced_eq (ht : t.Spelled) (hu : u.Spelled) (htk : t.kind ∈ TokenKind.fixed)
    (huk : u.kind ∈ TokenKind.fixed) (h : t.lexeme = u.lexeme) : t.unplaced = u.unplaced := by
  obtain ⟨htw, htl⟩ := ht.fixed_of_kind htk
  obtain ⟨huw, hul⟩ := hu.fixed_of_kind huk
  have hk : t.kind = u.kind := by
    rw [htw, huw] at h
    exact TokenKind.text_injective htk huk h
  exact Token.unplaced_eq hk h (htl.trans hul.symm)

theorem IsName.isWord (h : t.IsName) : IsWord t.lexeme := by
  have hparts : ∀ c ∈ t.lexeme.toList, Segment.isWordPart c = true := by
    have hw := (h.1.name_of_kind h.2).1
    generalize t.lexeme.toList = w at hw
    cases hw with
    | word hc hw =>
      refine List.forall_mem_cons.2 ⟨?_, fun d hd => ?_⟩
      · exact Segment.isWordPart_iff.2 (.inl hc)
      · exact Segment.isWordPart_iff.2 (hw d hd)
  intro c hc
  have hpart := hparts c hc
  constructor
  · rintro rfl
    exact absurd hpart (by decide)
  · intro hstop
    rcases Bracketed.mem_stops.1 hstop with rfl | rfl | rfl <;> exact absurd hpart (by decide)

/-- A prefix operator as a scan makes it. -/
def IsPrefix (t : Token) : Prop :=
  t.Spelled ∧ t.kind ∈ prefixOperators

/-- An operator of two operands as a scan makes it. -/
def IsBinary (t : Token) : Prop :=
  t.Spelled ∧ ∃ p : Precedence, t.kind ∈ p.operators

theorem IsPrefix.spec (h : t.IsPrefix) :
    t.kind ∈ TokenKind.fixed ∧ IsWord t.lexeme ∧ t.lexeme ≠ "group" := by
  have key : ∀ k ∈ prefixOperators, k ∈ TokenKind.fixed ∧ IsWord k.text ∧ k.text ≠ "group" := by
    decide
  obtain ⟨hk, hword, hgroup⟩ := key t.kind h.2
  rw [(h.1.fixed_of_kind hk).1]
  exact ⟨hk, hword, hgroup⟩

theorem IsBinary.spec (h : t.IsBinary) :
    t.kind ∈ TokenKind.fixed ∧ IsWord t.lexeme ∧ t.lexeme ≠ "=" := by
  have key : ∀ p ∈ Precedence.binaryLevels, ∀ k ∈ p.operators,
      k ∈ TokenKind.fixed ∧ IsWord k.text ∧ k.text ≠ "=" := by
    decide
  obtain ⟨hspelled, p, hp⟩ := h
  obtain ⟨hk, hword, heq⟩ := key p (Precedence.mem_binaryLevels (List.ne_nil_of_mem hp)) _ hp
  rw [(hspelled.fixed_of_kind hk).1]
  exact ⟨hk, hword, heq⟩

end Token

/-! ### Values -/

namespace Number

theorem not_isLetter_of_mem_text {x : Float} (h : IsFinite x) {c : Char}
    (hc : c ∈ (text x).toList) : ¬Segment.IsLetter c := by
  intro hletter
  rcases of_mem_text h hc with hdigit | rfl | rfl
  · exact Segment.not_isDigit_of_isLetter hletter (Segment.isDigit_iff.1 hdigit)
  · exact absurd (Segment.isWordStart_iff.2 hletter) (by decide)
  · exact absurd (Segment.isWordStart_iff.2 hletter) (by decide)

theorem isWord_text {x : Float} (h : IsFinite x) : IsWord (text x) := by
  intro c hc
  have hchar := of_mem_text h hc
  constructor
  · rintro rfl
    exact absurd hchar (by decide)
  · intro hstop
    rcases Bracketed.mem_stops.1 hstop with rfl | rfl | rfl <;> exact absurd hchar (by decide)

end Number

namespace Literal

/-- The value is no string and not infinite. -/
def Legible : Literal → Prop
  | number x => ¬Number.IsInfinite x
  | string _ => False
  | bool _ | nil => True

instance : DecidablePred Legible
  | number _ => inferInstanceAs (Decidable ¬(_ ∧ _))
  | string _ => isFalse id
  | bool _ | nil => isTrue trivial

/-- The values of keywords. -/
def constants : List Literal :=
  [.bool true, .bool false, .nil]

/-- The value is written as a finite number or as a keyword. -/
inductive Plain : Literal → Prop
  | number {x} (h : Number.IsFinite x) : Plain (number x)
  | constant {v} (h : v ∈ constants) : Plain v

variable {v w : Literal}

theorem Legible.plain (h : v.Legible) (hn : ∀ x, v = number x → ¬Number.IsNaN x) : v.Plain := by
  cases v with
  | number x => exact .number (Number.isFinite_of_not (hn x rfl) h)
  | string s => exact absurd h id
  | bool b => cases b <;> exact .constant (by simp [constants])
  | nil => exact .constant (by simp [constants])

/-- A keyword for a value has letters, which a number has not. -/
theorem exists_isLetter_of_mem_constants (h : v ∈ constants) :
    ∃ c ∈ v.text.toList, Segment.IsLetter c := by
  simp only [constants, List.mem_cons, List.not_mem_nil, or_false] at h
  rcases h with rfl | rfl | rfl
  · exact ⟨'t', by decide, Segment.isWordStart_iff.1 (by decide)⟩
  · exact ⟨'f', by decide, Segment.isWordStart_iff.1 (by decide)⟩
  · exact ⟨'n', by decide, Segment.isWordStart_iff.1 (by decide)⟩

theorem text_number_ne_constant {x : Float} (hx : Number.IsFinite x) (hv : v ∈ constants) :
    Number.text x ≠ v.text := by
  intro h
  obtain ⟨c, hc, hletter⟩ := exists_isLetter_of_mem_constants hv
  rw [← h] at hc
  exact Number.not_isLetter_of_mem_text hx hc hletter

theorem Plain.text_inj (hv : v.Plain) (hw : w.Plain) (h : v.text = w.text) : v = w := by
  cases hv with
  | number hx =>
    cases hw with
    | number hy => exact congrArg Literal.number (Number.text_injective hx hy h)
    | constant hw => exact absurd h (text_number_ne_constant hx hw)
  | constant hv =>
    cases hw with
    | number hy => exact absurd h.symm (text_number_ne_constant hy hv)
    | constant hw =>
      have key : ∀ v ∈ constants, ∀ w ∈ constants, v.text = w.text → v = w := by decide
      exact key v hv w hw h

theorem Plain.isWord (h : v.Plain) : IsWord v.text := by
  cases h with
  | number hx => exact Number.isWord_text hx
  | constant hv =>
    have key : ∀ v ∈ constants, IsWord v.text := by decide
    exact key v hv

/-- No name looks like a value. -/
theorem Plain.text_ne_lexeme (h : v.Plain) {t : Token} (ht : t.IsName) : v.text ≠ t.lexeme := by
  intro htext
  obtain ⟨hw, hr, -⟩ := ht.1.name_of_kind ht.2
  rw [← htext] at hw hr
  cases h with
  | @number x hx =>
    have hchars : ∀ c ∈ (Literal.number x).text.toList, ¬Segment.IsLetter c :=
      fun c => Number.not_isLetter_of_mem_text hx
    generalize (Literal.number x).text.toList = cs at hw hchars
    cases hw with
    | @word c _ hletter _ => exact hchars c (by simp) hletter
  | constant hv =>
    have key : ∀ v ∈ constants, TokenKind.keyword? v.text ≠ none := by decide
    exact key v hv hr

end Literal

/-- A value is legible, and a token is. -/
def Piece.Legible : Piece → Prop
  | token _ => True
  | value v => v.Legible

instance : DecidablePred Piece.Legible
  | .token _ => isTrue trivial
  | .value v => inferInstanceAs (Decidable v.Legible)

/-! ### Expressions -/

namespace Expr

/-- The tokens of the tree are spelled as a scan spells them, and each is of a kind that fits its
place; the values are finite numbers or have a keyword. -/
def Written : Expr → Prop
  | literal value => value.Plain
  | grouping inner => inner.Written
  | unary operator operand => operator.IsPrefix ∧ operand.Written
  | binary left operator right => left.Written ∧ operator.IsBinary ∧ right.Written
  | var name => name.IsName
  | assign name value => name.IsName ∧ value.Written

theorem Written.clear {e : Expr} (h : e.Written) : e.bracketed.Clear := by
  induction e with
  | literal v => exact Literal.Plain.isWord h
  | grouping e ih => exact ⟨by decide, ih h, trivial⟩
  | unary o e ih => exact ⟨h.1.spec.2.1, ih h.2, trivial⟩
  | binary l o r ihl ihr => exact ⟨h.2.1.spec.2.1, ihl h.1, ihr h.2.2, trivial⟩
  | var n => exact Token.IsName.isWord h
  | assign n e ih => exact ⟨by decide, h.1.isWord, ih h.2, trivial⟩

/-- The words and the heads of an outline tell which tree it is of. -/
theorem bracketed_inj {e e' : Expr} (he : e.Written) (he' : e'.Written)
    (h : e.bracketed = e'.bracketed) :
    e.mapTokens Token.unplaced = e'.mapTokens Token.unplaced := by
  induction e generalizing e' with
  | literal v =>
    cases e' with
    | literal w =>
      rw [Literal.Plain.text_inj he he' (Bracketed.word.inj h)]
    | var n => exact absurd (Bracketed.word.inj h) (Literal.Plain.text_ne_lexeme he he')
    | _ => cases h
  | var n =>
    cases e' with
    | literal v => exact absurd (Bracketed.word.inj h).symm (Literal.Plain.text_ne_lexeme he' he)
    | var m => exact congrArg var (Token.IsName.unplaced_eq he he' (Bracketed.word.inj h))
    | _ => cases h
  | grouping e ih =>
    cases e' with
    | grouping e' =>
      have hparts := (Bracketed.node.inj h).2
      exact congrArg grouping (ih he he' (List.cons.inj hparts).1)
    | unary o e' => exact absurd (Bracketed.node.inj h).1.symm he'.1.spec.2.2
    | binary | assign => simp [bracketed] at h
    | literal | var => cases h
  | unary o e ih =>
    cases e' with
    | grouping e' => exact absurd (Bracketed.node.inj h).1 he.1.spec.2.2
    | unary o' e' =>
      obtain ⟨hhead, hparts⟩ := Bracketed.node.inj h
      have ho : o.unplaced = o'.unplaced :=
        he.1.1.unplaced_eq he'.1.1 he.1.spec.1 he'.1.spec.1 hhead
      rw [mapTokens, mapTokens, ho, ih he.2 he'.2 (List.cons.inj hparts).1]
    | binary | assign => simp [bracketed] at h
    | literal | var => cases h
  | binary l o r ihl ihr =>
    cases e' with
    | binary l' o' r' =>
      obtain ⟨hhead, hparts⟩ := Bracketed.node.inj h
      obtain ⟨hl, hr⟩ := List.cons.inj hparts
      have ho : o.unplaced = o'.unplaced :=
        he.2.1.1.unplaced_eq he'.2.1.1 he.2.1.spec.1 he'.2.1.spec.1 hhead
      rw [mapTokens, mapTokens, ho, ihl he.1 he'.1 hl, ihr he.2.2 he'.2.2 (List.cons.inj hr).1]
    | assign n e' => exact absurd (Bracketed.node.inj h).1 he.2.1.spec.2.2
    | grouping | unary => simp [bracketed] at h
    | literal | var => cases h
  | assign n e ih =>
    cases e' with
    | binary l o r => exact absurd (Bracketed.node.inj h).1.symm he'.2.1.spec.2.2
    | assign n' e' =>
      obtain ⟨hname, hvalue⟩ := List.cons.inj (Bracketed.node.inj h).2
      have hn : n.unplaced = n'.unplaced := he.1.unplaced_eq he'.1 (Bracketed.word.inj hname)
      rw [mapTokens, mapTokens, hn, ih he.2 he'.2 (List.cons.inj hvalue).1]
    | grouping | unary => simp [bracketed] at h
    | literal | var => cases h

theorem outline_inj {e e' : Expr} (he : e.Written) (he' : e'.Written)
    (h : e.outline = e'.outline) : e.mapTokens Token.unplaced = e'.mapTokens Token.unplaced := by
  have htext : e.bracketed.text = e'.bracketed.text := by
    rw [e.text_bracketed, e'.text_bracketed, h]
  exact bracketed_inj he he' (Bracketed.text_inj he.clear he'.clear htext)

end Expr

/-! ### Statements -/

namespace Stmt

mutual

def Written : Stmt → Prop
  | expression expr => expr.Written
  | print expr => expr.Written
  | varDecl name none => name.IsName
  | varDecl name (some value) => name.IsName ∧ value.Written
  | block body => AllWritten body

def AllWritten : List Stmt → Prop
  | [] => True
  | s :: ss => s.Written ∧ AllWritten ss

end

mutual

theorem Written.clear : ∀ {s : Stmt}, s.Written → s.bracketed.Clear
  | expression _, h => ⟨by decide, Expr.Written.clear h, trivial⟩
  | print _, h => ⟨by decide, Expr.Written.clear h, trivial⟩
  | varDecl _ none, h => ⟨by decide, Token.IsName.isWord h, trivial⟩
  | varDecl _ (some _), h =>
    ⟨by decide, h.1.isWord, show IsWord "=" by decide, Expr.Written.clear h.2, trivial⟩
  | block _, h => ⟨by decide, AllWritten.clear h⟩

theorem AllWritten.clear : ∀ {ss : List Stmt}, AllWritten ss →
    Bracketed.AllClear (allBracketed ss)
  | [], _ => trivial
  | _ :: _, h => ⟨h.1.clear, AllWritten.clear h.2⟩

end

mutual

theorem bracketed_inj : ∀ {s s' : Stmt}, s.Written → s'.Written → s.bracketed = s'.bracketed →
    s.mapTokens Token.unplaced = s'.mapTokens Token.unplaced
  | expression e, s', hs, hs', h => by
    cases s' with
    | expression e' =>
      have he := (List.cons.inj (Bracketed.node.inj h).2).1
      exact congrArg expression (Expr.bracketed_inj hs hs' he)
    | varDecl n value => cases value <;> simp [bracketed] at h
    | print | block => simp [bracketed] at h
  | print e, s', hs, hs', h => by
    cases s' with
    | print e' =>
      have he := (List.cons.inj (Bracketed.node.inj h).2).1
      exact congrArg print (Expr.bracketed_inj hs hs' he)
    | varDecl n value => cases value <;> simp [bracketed] at h
    | expression | block => simp [bracketed] at h
  | varDecl n none, s', hs, hs', h => by
    cases s' with
    | varDecl n' value =>
      cases value with
      | none =>
        have hn := (List.cons.inj (Bracketed.node.inj h).2).1
        rw [mapTokens, mapTokens, Token.IsName.unplaced_eq hs hs' (Bracketed.word.inj hn)]
      | some e' => simp [bracketed] at h
    | expression | print | block => simp [bracketed] at h
  | varDecl n (some e), s', hs, hs', h => by
    cases s' with
    | varDecl n' value =>
      cases value with
      | none => simp [bracketed] at h
      | some e' =>
        obtain ⟨hn, hvalue⟩ := List.cons.inj (Bracketed.node.inj h).2
        have he := (List.cons.inj (List.cons.inj hvalue).2).1
        rw [mapTokens, mapTokens, hs.1.unplaced_eq hs'.1 (Bracketed.word.inj hn), Option.map_some,
          Option.map_some, Expr.bracketed_inj hs.2 hs'.2 he]
    | expression | print | block => simp [bracketed] at h
  | block body, s', hs, hs', h => by
    cases s' with
    | block body' =>
      rw [mapTokens, mapTokens, allBracketed_inj hs hs' (Bracketed.node.inj h).2]
    | varDecl n value => cases value <;> simp [bracketed] at h
    | expression | print => simp [bracketed] at h

theorem allBracketed_inj : ∀ {ss ss' : List Stmt}, AllWritten ss → AllWritten ss' →
    allBracketed ss = allBracketed ss' →
    mapAllTokens Token.unplaced ss = mapAllTokens Token.unplaced ss'
  | [], [], _, _, _ => rfl
  | [], _ :: _, _, _, h => by cases h
  | _ :: _, [], _, _, h => by cases h
  | s :: ss, s' :: ss', hs, hs', h => by
    obtain ⟨hfirst, hrest⟩ := List.cons.inj h
    rw [mapAllTokens, mapAllTokens, bracketed_inj hs.1 hs'.1 hfirst,
      allBracketed_inj hs.2 hs'.2 hrest]

end

end Stmt

theorem outlineProgram_inj {p q : List Stmt} (hp : Stmt.AllWritten p) (hq : Stmt.AllWritten q)
    (h : outlineProgram p = outlineProgram q) :
    p.map (Stmt.mapTokens Token.unplaced) = q.map (Stmt.mapTokens Token.unplaced) := by
  have hlines : Bracketed.lines (Stmt.allBracketed p) = Bracketed.lines (Stmt.allBracketed q) := by
    rw [Stmt.lines_allBracketed, Stmt.lines_allBracketed, h]
  have hbracketed : Stmt.allBracketed p = Stmt.allBracketed q :=
    Bracketed.lines_inj hp.clear hq.clear Stmt.text_ne_nil Stmt.text_ne_nil hlines
  rw [← Stmt.mapAllTokens_eq_map, ← Stmt.mapAllTokens_eq_map,
    Stmt.allBracketed_inj hp hq hbracketed]

end Lox
