import Lox.Proofs.Grammar.Tolerant

/-!
# Semicolons

Which kinds of tokens stand in expressions and in statements.  The key facts: a declaration other
than a block ends with its first semicolon (`Declaration.eq_append_semicolon`), and behind its first
token there is none that begins a statement (`Declaration.kindsIn_tail`).
-/

namespace Lox

namespace Tolerant

/-! ### Kinds of tokens -/

/-- The kinds of the tokens of expressions, apart from those that carry a value. -/
def expressionKinds : List TokenKind :=
  [.kwFalse, .kwTrue, .kwNil, .identifier, .openParen, .closeParen, .not, .dash, .plus, .slash,
    .star, .notEquals, .equals, .greater, .greaterEquals, .less, .lessEquals, .assignment]

/-- The tokens that carry no value are of these kinds. -/
def KindsIn (kinds : List TokenKind) (ts : List Token) : Prop :=
  ∀ t ∈ ts, t.literal = none → t.kind ∈ kinds

theorem kindsIn_nil (kinds : List TokenKind) : KindsIn kinds [] :=
  fun _ h => absurd h List.not_mem_nil

theorem kindsIn_cons {kinds : List TokenKind} {t : Token} {ts : List Token} :
    KindsIn kinds (t :: ts) ↔ (t.literal = none → t.kind ∈ kinds) ∧ KindsIn kinds ts :=
  List.forall_mem_cons

theorem kindsIn_append {kinds : List TokenKind} {ts us : List Token} :
    KindsIn kinds (ts ++ us) ↔ KindsIn kinds ts ∧ KindsIn kinds us :=
  List.forall_mem_append

theorem KindsIn.of_subset {kinds kinds' : List TokenKind} {ts : List Token} (h : KindsIn kinds ts)
    (hs : kinds ⊆ kinds') : KindsIn kinds' ts :=
  fun t ht hl => hs (h t ht hl)

/-- In a scan the tokens that carry a value are numbers and strings. -/
theorem KindsIn.kind_mem {kinds : List TokenKind} {ts : List Token} (h : KindsIn kinds ts)
    (ht : RegularTokens ts) : ∀ t ∈ ts, t.kind ∈ TokenKind.number :: .string :: kinds := by
  intro t hm
  cases hl : t.literal with
  | none => simp [h t hm hl]
  | some v => rcases (ht t hm).2.kind_of_literal hl with hk | hk <;> simp [hk]

theorem Derives.kindsIn {room : Nat} {p : Precedence} {ts : List Token} {e : Expr}
    {bad : List Token} (h : Derives room p ts e bad) : KindsIn expressionKinds ts := by
  have hprefix : prefixOperators ⊆ expressionKinds := by decide
  have hoperators (p : Precedence) : p.operators ⊆ expressionKinds := by cases p <;> decide
  have hassignment : TokenKind.assignment ∈ expressionKinds := by decide
  induction h with
  | literal h => simp [kindsIn_cons, kindsIn_nil, h]
  | false h _ => simp [kindsIn_cons, kindsIn_nil, h, expressionKinds]
  | true h _ => simp [kindsIn_cons, kindsIn_nil, h, expressionKinds]
  | nil h _ => simp [kindsIn_cons, kindsIn_nil, h, expressionKinds]
  | var h _ => simp [kindsIn_cons, kindsIn_nil, h, expressionKinds]
  | grouping ho _ _ hc ih =>
    have hopen : TokenKind.openParen ∈ expressionKinds := by decide
    have hclose : TokenKind.closeParen ∈ expressionKinds := by decide
    simp [kindsIn_cons, kindsIn_append, kindsIn_nil, ho, hc, ih, hopen, hclose]
  | operand _ _ ih => exact ih
  | unary ho _ ih => exact kindsIn_cons.2 ⟨fun _ => hprefix ho, ih⟩
  | binary _ ho _ ihl ihr =>
    exact kindsIn_append.2 ⟨ihl, kindsIn_cons.2 ⟨fun _ => hoperators _ ho, ihr⟩⟩
  | assign _ hq _ iht ihv =>
    exact kindsIn_append.2 ⟨iht, kindsIn_cons.2 ⟨fun _ => hq ▸ hassignment, ihv⟩⟩
  | misplaced _ _ hq _ iht ihv =>
    exact kindsIn_append.2 ⟨iht, kindsIn_cons.2 ⟨fun _ => hq ▸ hassignment, ihv⟩⟩
  | next _ _ ih => exact ih

/-- Behind its first token a declaration other than a block has the tokens of an expression and
semicolons only. -/
theorem Declaration.kindsIn_tail {room : Nat} {ts : List Token} {s : Stmt} {bad : List Token}
    (h : Declaration room ts s bad) (hhead : HeadNotIn [.openCurly] ts) :
    KindsIn (.semicolon :: expressionKinds) ts.tail := by
  have hname : TokenKind.identifier ∈ TokenKind.semicolon :: expressionKinds := by decide
  have hassignment : TokenKind.assignment ∈ TokenKind.semicolon :: expressionKinds := by decide
  have terminated {us : List Token} {t : Token} (hus : KindsIn expressionKinds us)
      (ht : t.kind = .semicolon) : KindsIn (.semicolon :: expressionKinds) (us ++ [t]) := by
    refine kindsIn_append.2 ⟨hus.of_subset (List.subset_cons_self _ _), ?_⟩
    exact kindsIn_cons.2 ⟨fun _ => by simp [ht], kindsIn_nil _⟩
  cases h with
  | var _ hn hs => exact kindsIn_cons.2 ⟨fun _ => hn ▸ hname, terminated (kindsIn_nil _) hs⟩
  | init _ hn hq h hs =>
    exact kindsIn_cons.2 ⟨fun _ => hn ▸ hname, kindsIn_cons.2 ⟨fun _ => hq ▸ hassignment,
      terminated h.kindsIn hs⟩⟩
  | print _ h hs => exact terminated h.kindsIn hs
  | block ho _ _ => exact absurd (by simp [ho]) (headNotIn_cons.1 hhead)
  | expression h _ hs => exact fun t ht => terminated h.kindsIn hs t (List.mem_of_mem_tail ht)

/-! ### Semicolons -/

/-- Only a token that carries a value may look like a semicolon. -/
def NoSemicolon (ts : List Token) : Prop :=
  ∀ t ∈ ts, t.kind = .semicolon → t.literal ≠ none

theorem noSemicolon_cons {t : Token} {ts : List Token} :
    NoSemicolon (t :: ts) ↔ (t.kind = .semicolon → t.literal ≠ none) ∧ NoSemicolon ts :=
  List.forall_mem_cons

theorem noSemicolon_nil : NoSemicolon [] :=
  fun _ h => absurd h List.not_mem_nil

theorem Derives.noSemicolon {room : Nat} {p : Precedence} {ts : List Token} {e : Expr}
    {bad : List Token} (h : Derives room p ts e bad) : NoSemicolon ts := by
  intro t ht hk hl
  have key := h.kindsIn t ht hl
  rw [hk] at key
  revert key
  decide

/-- A declaration other than a block ends with its first semicolon. -/
theorem Declaration.eq_append_semicolon {room : Nat} {ts : List Token} {s : Stmt}
    {bad : List Token} (h : Declaration room ts s bad) (hhead : HeadNotIn [.openCurly] ts) :
    ∃ us t, ts = us ++ [t] ∧ t.kind = .semicolon ∧ NoSemicolon us := by
  cases h with
  | @var _ k n t hk hn hs =>
    exact ⟨[k, n], t, rfl, hs, by simp [noSemicolon_cons, noSemicolon_nil, hk, hn]⟩
  | @init _ k n q ts _ _ t hk hn hq h hs =>
    exact ⟨k :: n :: q :: ts, t, rfl, hs, by simp [noSemicolon_cons, hk, hn, hq, h.noSemicolon]⟩
  | @print _ k ts _ _ t hk h hs =>
    exact ⟨k :: ts, t, rfl, hs, by simp [noSemicolon_cons, hk, h.noSemicolon]⟩
  | block ho _ _ => exact absurd (by simp [ho]) (headNotIn_cons.1 hhead)
  | @expression _ ts _ _ t h _ hs => exact ⟨ts, t, rfl, hs, h.noSemicolon⟩

/-- Behind a semicolon no declaration goes on. -/
theorem Declaration.eq_nil_of_semicolon {room : Nat} {ts us : List Token} {t : Token} {s : Stmt}
    {bad : List Token} (h : Declaration room (ts ++ t :: us) s bad)
    (hhead : HeadNotIn [.openCurly] (ts ++ t :: us)) (ht : t.kind = .semicolon)
    (hl : t.literal = none) : us = [] := by
  obtain ⟨vs, v, hvs, -, hno⟩ := h.eq_append_semicolon hhead
  rcases List.eq_nil_or_concat us with rfl | ⟨ws, w, rfl⟩
  · rfl
  · have hlist : (ts ++ t :: ws) ++ [w] = vs ++ [v] := by simpa using hvs
    obtain ⟨rfl, -⟩ := List.append_inj' hlist rfl
    exact absurd hl (hno t (by simp) ht)

end Tolerant

end Lox
