import Lox.Proofs.Parse.Dispatch
import Lox.Proofs.Parse.Stream
import Lox.Proofs.Tree.Canonical

/-!
# The trees of the parser

Whatever the tokens are, and whatever was reported, a tree that the parser gives is canonical, and it
is not deeper than there were levels (`canonical_parse`).  What holds of every value that a production
ends with is carried through the productions by one rule for each combinator (`Ensures`).
-/

namespace Lox

namespace Parse

variable {α β : Type}

/-! ### What values have in common -/

/-- Wherever the production is begun, a value that it ends with has the property. -/
def Ensures (p : Parse α) (Q : α → Prop) : Prop :=
  ∀ (c : Cursor) (a : α), (p c).result = .ok a → Q a

section Rules

variable {P Q : α → Prop} {p : Parse α}

theorem ensures_true (p : Parse α) : Ensures p fun _ => True :=
  fun _ _ _ => trivial

theorem Ensures.mono (h : Ensures p P) (hPQ : ∀ a, P a → Q a) : Ensures p Q :=
  fun c a ha => hPQ a (h c a ha)

theorem ensures_pure {a : α} (h : Q a) : Ensures (pure a) Q := by
  rintro c _ ⟨⟩
  exact h

theorem ensures_refuse (cause : Cause) : Ensures (refuse cause) Q := by
  rintro c a ⟨⟩

theorem Ensures.bind {R : β → Prop} {f : α → Parse β} (hp : Ensures p P)
    (hf : ∀ a, P a → Ensures (f a) R) : Ensures (p >>= f) R := by
  intro c b hb
  rcases hrun : p c with ⟨e | a, d, notes⟩
  · rw [bind_apply_of_error hrun] at hb
    cases hb
  · rw [bind_apply_of_ok hrun] at hb
    exact hf a (hp c a (by rw [hrun])) d b hb

/-- Nothing is known of the value of the first part. -/
theorem ensures_bind {R : β → Prop} {f : α → Parse β} (hf : ∀ a, Ensures (f a) R) :
    Ensures (p >>= f) R :=
  (ensures_true p).bind fun a _ => hf a

theorem ensures_accept (kinds : List TokenKind) :
    Ensures (accept kinds) fun o => ∀ s ∈ o, s.token.kind ∈ kinds := by
  intro c o ho
  cases hk : c.isAt kinds with
  | false =>
    rw [accept_of_isAt_eq_false hk] at ho
    cases ho
    simp
  | true =>
    obtain ⟨t, ht, hc⟩ := Cursor.exists_passes_of_isAt hk
    rw [accept_of_passes hc ht] at ho
    cases ho
    simpa using ht

theorem ensures_expect (kind : TokenKind) (message : String) :
    Ensures (expect kind message) fun t => t.kind = kind := by
  refine (ensures_accept [kind]).bind ?_
  rintro (_ | s) hs
  · exact ensures_refuse _
  · exact ensures_pure (by simpa using hs)

theorem Ensures.many {p : Parse (Option α)} (h : Ensures p fun o => ∀ a ∈ o, Q a) :
    Ensures (many p) fun as => ∀ a ∈ as, Q a := by
  intro c as has
  fun_induction Parse.many p c generalizing as with
  | case1 c a d notes hrun _ o ih =>
    have ha : Q a := h c (some a) (by rw [hrun]) a rfl
    cases hres : o.result with
    | error f =>
      rw [hres] at has
      cases has
    | ok bs =>
      rw [hres] at has
      cases has
      exact List.forall_mem_cons.2 ⟨ha, ih bs hres⟩
  | case2 c a d notes hrun _ =>
    cases has
    simpa using h c (some a) (by rw [hrun]) a rfl
  | case3 c d notes hrun =>
    cases has
    simp
  | case4 c f d notes hrun => cases has

theorem Ensures.noting (h : Ensures p Q) : Ensures (noting p) fun o => ∀ a ∈ o, Q a := by
  have attempted : Ensures (attempt p) fun r => ∀ a, r = .ok a → Q a := by
    rintro c _ ⟨⟩ a ha
    exact h c a ha
  refine attempted.bind ?_
  rintro (f | a) ha
  · exact ensures_bind fun _ => ensures_pure (by simp)
  · exact ensures_pure (by simpa using ha a rfl)

theorem Ensures.recovering {p : Parse Stmt} {Q : Stmt → Prop} (h : Ensures p Q) :
    Ensures (recovering p) fun o => ∀ s ∈ o, Q s := by
  refine h.noting.bind ?_
  rintro (_ | s) hs
  · exact ensures_bind fun _ => ensures_pure (by simp)
  · exact ensures_pure hs

end Rules

/-! ### Expressions -/

/-- The tree of an expression that is read with the precedence `p` and `room` levels. -/
structure FitsExpr (room : Nat) (p : Precedence) (e : Expr) : Prop where
  canonical : e.Canonical
  tight : p.rank ≤ e.precedence.rank
  shallow : e.depth ≤ room

theorem FitsExpr.of_rank_le {room : Nat} {p q : Precedence} {e : Expr} (h : FitsExpr room q e)
    (hp : p.rank ≤ q.rank) : FitsExpr room p e :=
  ⟨h.canonical, Nat.le_trans hp h.tight, h.shallow⟩

section Expression

variable {room : Nat} {p : Precedence}

private theorem fitsExpr_literal (v : Literal) : FitsExpr room .primary (.literal v) :=
  ⟨trivial, Nat.le_refl _, Nat.zero_le _⟩

/-- An operand to the right is joined to what stands to the left of it. -/
theorem FitsExpr.binary {left right : Expr} {operator : Token} (hl : FitsExpr room p left)
    (ho : operator.kind ∈ p.operators) (hr : FitsExpr room p.next right) :
    FitsExpr room p (.binary left operator right) := by
  have hp : p.operators ≠ [] := List.ne_nil_of_mem ho
  have hlevel := Precedence.mem_binaryLevels hp
  have hrank : p.rank < right.precedence.rank :=
    Nat.lt_of_lt_of_le (by rw [Precedence.rank_next hp]; omega) hr.tight
  have hequality : Precedence.equality.rank ≤ p.rank := by
    have key : ∀ p ∈ Precedence.binaryLevels, Precedence.equality.rank ≤ p.rank := by decide
    exact key p hlevel
  refine ⟨⟨⟨p, ⟨hlevel, ho⟩, fun q _ hq => Precedence.eq_of_mem_operators hq ho, hl.tight,
    hrank⟩, ?_, ?_, hl.canonical, hr.canonical⟩, ?_, Nat.max_le.2 ⟨hl.shallow, hr.shallow⟩⟩
  · exact Expr.not_isAssignment_of_rank (Nat.le_trans hequality hl.tight)
  · exact Expr.not_isAssignment_of_rank (Nat.le_trans hequality (Nat.le_of_lt hrank))
  · rw [Expr.precedence_binary ho]

theorem FitsExpr.foldl {more : List (Token × Expr)} {first : Expr} (h : FitsExpr room p first)
    (hmore : ∀ op ∈ more, op.1.kind ∈ p.operators ∧ FitsExpr room p.next op.2) :
    FitsExpr room p (more.foldl joinLeft first) := by
  induction more generalizing first with
  | nil => exact h
  | cons op more ih =>
    obtain ⟨⟨ho, hr⟩, hmore⟩ := List.forall_mem_cons.1 hmore
    exact ih (h.binary ho hr) hmore

theorem FitsExpr.unary {operand : Expr} {operator : Token} (ho : operator.kind ∈ [.not, .dash])
    (h : FitsExpr room .unary operand) : FitsExpr (room + 1) .unary (.unary operator operand) := by
  refine ⟨⟨ho, Expr.isOperand_of_rank h.tight, ?_, h.canonical⟩, Nat.le_refl _,
    Nat.succ_le_succ h.shallow⟩
  exact Expr.not_isAssignment_of_rank (Nat.le_trans (by decide) h.tight)

private theorem ensures_leftAssoc {operand : Parse Expr} (hp : p.operators ≠ [])
    (h : Ensures operand (FitsExpr room p.next)) :
    Ensures (leftAssoc p.operators operand) (FitsExpr room p) := by
  have hnext {e : Expr} (he : FitsExpr room p.next e) : FitsExpr room p e :=
    he.of_rank_le (by rw [Precedence.rank_next hp]; omega)
  have operation : Ensures (operation p.operators operand) fun o =>
      ∀ op ∈ o, op.1.kind ∈ p.operators ∧ FitsExpr room p.next op.2 := by
    refine (ensures_accept _).bind ?_
    rintro (_ | s) hs
    · exact ensures_pure (by simp)
    · exact h.bind fun right hr => ensures_pure (by simpa using ⟨hs s rfl, hr⟩)
  rw [leftAssoc_eq]
  exact h.bind fun first hfirst => operation.many.bind fun more hmore =>
    ensures_pure ((hnext hfirst).foldl hmore)

/-- The expressions one level deeper, if there is one, have trees that fit there. -/
private def EnsuresDeeper (room : Nat) : Prop :=
  ∀ r, room = r + 1 → ∀ p, Ensures (expression r p) (FitsExpr r p)

private theorem ensures_nested {α : Type} {f : (Precedence → Parse Expr) → Parse α} {Q : α → Prop}
    (hf : ∀ r, room = r + 1 → Ensures (f (expression r)) Q) :
    Ensures (nested (deeper room) f) Q := by
  cases room with
  | zero => exact ensures_refuse _
  | succ r => exact hf r rfl

private theorem ensures_primary (h : EnsuresDeeper room) :
    Ensures (expression room .primary) (FitsExpr room .primary) := by
  have literal (v : Literal) : Ensures (skip >>= fun _ => pure (Expr.literal v))
      (FitsExpr room .primary) := ensures_bind fun _ => ensures_pure (fitsExpr_literal v)
  rw [expression_primary]
  refine ensures_bind fun token => ?_
  unfold primaryAt
  split
  · exact literal _
  · exact literal _
  · exact literal _
  · exact literal _
  · next hk =>
    exact ensures_bind fun _ => ensures_pure ⟨hk, Nat.le_refl _, Nat.zero_le _⟩
  · refine ensures_nested fun r hr => ensures_bind fun _ => (h r hr .default).bind fun e he =>
      ensures_bind fun _ => ensures_pure ?_
    rw [hr]
    exact ⟨he.canonical, Nat.le_refl _, Nat.succ_le_succ he.shallow⟩
  · exact ensures_refuse _

private theorem ensures_unary (h : EnsuresDeeper room) :
    Ensures (expression room .unary) (FitsExpr room .unary) := by
  rw [expression_unary]
  refine (ensures_accept _).bind ?_
  rintro (_ | s) hs
  · exact (ensures_primary h).mono fun e he => he.of_rank_le (by decide)
  · have operand : Ensures (nested (deeper room) fun inner => inner .unary) fun e =>
        FitsExpr room .unary (.unary s.token e) := by
      refine ensures_nested fun r hr => (h r hr .unary).mono fun e he => ?_
      rw [hr]
      exact he.unary (hs s rfl)
    exact operand.bind fun e he => ensures_pure he

/-- A target that is no variable is kept alone, and then it is looser than it has to be. -/
private theorem ensures_assignment (h : EnsuresDeeper room)
    (htarget : Ensures (expression room .equality) (FitsExpr room .equality)) :
    Ensures (expression room .assignment) (FitsExpr room .assignment) := by
  rw [expression_assignment, assigned]
  refine htarget.bind fun target ht => ensures_bind ?_
  have alone : FitsExpr room .assignment target := ht.of_rank_le (by decide)
  rintro (_ | equals)
  · exact ensures_pure alone
  · have value : Ensures (nested (deeper room) fun inner => inner .assignment) fun v =>
        v.Canonical ∧ v.depth + 1 ≤ room :=
      ensures_nested fun r hr => (h r hr .assignment).mono fun v hv =>
        ⟨hv.canonical, hr ▸ Nat.succ_le_succ hv.shallow⟩
    refine value.bind fun v hv => ?_
    unfold assigning
    split
    · next name => exact ensures_pure ⟨⟨ht.canonical, hv.1⟩, Nat.le_refl _, hv.2⟩
    · exact ensures_bind fun _ => ensures_pure alone

theorem ensures_expression (room : Nat) (p : Precedence) :
    Ensures (expression room p) (FitsExpr room p) := by
  induction room using Nat.strongRecOn generalizing p with
  | ind room ih =>
    have hdeeper : EnsuresDeeper room := fun r hr => ih r (by omega)
    have operators {p : Precedence} (hp : p.operators ≠ [])
        (hnext : Ensures (expression room p.next) (FitsExpr room p.next)) :
        Ensures (expression room p) (FitsExpr room p) := by
      rw [expression_of_operators room hp]
      exact ensures_leftAssoc hp hnext
    have unary := ensures_unary hdeeper
    have factor := operators (p := .factor) (by decide) unary
    have term := operators (p := .term) (by decide) factor
    have comparison := operators (p := .comparison) (by decide) term
    have equality := operators (p := .equality) (by decide) comparison
    have assignment := ensures_assignment hdeeper equality
    cases p with
    | default =>
      rw [expression_default]
      exact assignment.mono fun e he => he.of_rank_le (by decide)
    | assignment => exact assignment
    | equality => exact equality
    | comparison => exact comparison
    | term => exact term
    | factor => exact factor
    | unary => exact unary
    | primary => exact ensures_primary hdeeper

end Expression

/-! ### Statements -/

/-- The tree of a statement that is read with `room` levels. -/
structure FitsStmt (room : Nat) (s : Stmt) : Prop where
  canonical : s.Canonical
  shallow : s.depth ≤ room

theorem fitsStmt_block {room : Nat} {body : List Stmt} (h : ∀ s ∈ body, FitsStmt room s) :
    FitsStmt (room + 1) (.block body) :=
  ⟨Stmt.allCanonical_iff.2 fun s hs => (h s hs).canonical,
    Nat.succ_le_succ (Stmt.maxDepth_le_iff.2 fun s hs => (h s hs).shallow)⟩

section Statement

variable {room : Nat}

private theorem ensures_initializer (room : Nat) :
    Ensures (initializerWith (expression room .assignment)) fun o =>
      ∀ e ∈ o, FitsExpr room .assignment e := by
  refine ensures_bind ?_
  rintro (_ | equals)
  · exact ensures_pure (by simp)
  · exact (ensures_expression room .assignment).bind fun e he => ensures_pure (by simpa using he)

private theorem fitsStmt_varDecl {name : Token} {initializer : Option Expr}
    (hn : name.kind = .identifier) (h : ∀ e ∈ initializer, FitsExpr room .assignment e) :
    FitsStmt room (.varDecl name initializer) := by
  refine ⟨⟨hn, fun e he => (h e he).canonical⟩, ?_⟩
  cases initializer with
  | none => exact Nat.zero_le _
  | some e => exact (h e rfl).shallow

private theorem ensures_items {stop : Cursor → Bool}
    (h : ∀ k, Ensures (leading room k) (FitsStmt room)) :
    Ensures (many (item stop room)) fun os => ∀ s ∈ os.reduceOption, FitsStmt room s := by
  have declaration : Ensures (declaration .standard room) fun o => ∀ s ∈ o, FitsStmt room s := by
    rw [declaration_eq_recovering]
    exact ensures_bind fun token => (h token.kind).recovering
  have item : Ensures (item stop room) fun o => ∀ s ∈ o, ∀ t ∈ s, FitsStmt room t := by
    intro c o ho
    unfold Parse.item at ho
    split at ho
    · cases ho
      simp
    · have given : Ensures (some <$> Parse.declaration .standard room) fun o =>
          ∀ s ∈ o, ∀ t ∈ s, FitsStmt room t :=
        declaration.bind fun s hs => ensures_pure (by simpa using hs)
      exact given c o ho
  refine item.many.mono fun os hos s hs => ?_
  rw [List.reduceOption_mem_iff] at hs
  exact hos (some s) hs s rfl

private theorem ensures_leading_level (k : TokenKind)
    (hblock : Ensures (leading room .openCurly) (FitsStmt room)) :
    Ensures (leading room k) (FitsStmt room) := by
  have terminated {f : Expr → Stmt} (message : String)
      (hf : ∀ e, FitsExpr room .assignment e → FitsStmt room (f e)) :
      Ensures (expression room .assignment >>= fun e => expect .semicolon message >>= fun _ =>
        pure (f e)) (FitsStmt room) :=
    (ensures_expression room .assignment).bind fun e he =>
      ensures_bind fun _ => ensures_pure (hf e he)
  by_cases hk : k ∈ Tolerant.statementKinds
  · simp only [Tolerant.statementKinds, List.mem_cons, List.not_mem_nil, or_false] at hk
    rcases hk with rfl | rfl | rfl
    · rw [leading_kwVar]
      exact ensures_bind fun _ => (ensures_expect _ _).bind fun name hn =>
        (ensures_initializer room).bind fun initializer hi => ensures_bind fun _ =>
          ensures_pure (fitsStmt_varDecl hn hi)
    · rw [leading_kwPrint]
      exact ensures_bind fun _ => terminated _ fun e he => ⟨he.canonical, he.shallow⟩
    · exact hblock
  · rw [leading_of_not_mem room hk]
    exact terminated _ fun e he => ⟨he.canonical, he.shallow⟩

theorem ensures_leading (room : Nat) (k : TokenKind) :
    Ensures (leading room k) (FitsStmt room) := by
  induction room generalizing k with
  | zero => exact ensures_leading_level k (ensures_refuse _)
  | succ room ih =>
    refine ensures_leading_level k ?_
    rw [leading_openCurly]
    exact ensures_bind fun _ => (ensures_items ih).bind fun os hos =>
      ensures_bind fun _ => ensures_pure (fitsStmt_block hos)

theorem ensures_program (room : Nat) :
    Ensures (program .standard room) fun body => ∀ s ∈ body, FitsStmt room s := by
  rw [program_eq]
  exact (ensures_items (ensures_leading room)).bind fun os hos => ensures_pure hos

end Statement

theorem Ensures.value {α : Type} {p : Parse α} {Q : α → Prop} (h : Ensures p Q) (missing : α)
    (hm : Q missing) (c : Cursor) : Q ((p c).value missing) := by
  unfold Outcome.value
  split
  · next a ha => exact h c a ha
  · exact hm

end Parse

namespace TokenStream

open Parse

/-- All trees of the parser are canonical and within the depth of nesting: the statements of a
program, also where others were left out, and a single expression. -/
theorem canonical_parse (s : TokenStream) :
    (∀ stmt ∈ s.parse.program, stmt.Canonical ∧ stmt.depth ≤ maxNesting) ∧
      ∀ expr ∈ s.parseExpression.1, expr.Canonical ∧ expr.depth ≤ maxNesting := by
  constructor
  · intro stmt hstmt
    have key := (ensures_program maxNesting).value [] (by simp) s.cursor stmt hstmt
    exact ⟨key.canonical, key.shallow⟩
  · intro expr hexpr
    have line := (ensures_expression maxNesting .default).noting
    have key := line.value none (by simp) s.cursor expr hexpr
    exact ⟨key.canonical, key.shallow⟩

end TokenStream

end Lox
