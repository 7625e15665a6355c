import Lox.Proofs.Parse.Dispatch

/-!
# Relations between runs

Two runs of the parser may be compared production by production.  A relation between productions
that respects the single steps and the combinators (`Respects`) holds between every production of
the grammar and itself, and if it bears with refusals, also between a production and the same one
with more levels: the key facts are `Respects.expression` and `Respects.program`.  So what is to be
shown of all productions need only be shown of the steps.
-/

namespace Lox

/-- The causes of faults that productions find. -/
def Cause.isSyntactic : Cause → Bool
  | expectedExpression | expectedToken .. | invalidAssignmentTarget | tooDeeplyNested => true
  | unexpectedCharacter _ | unterminatedString | reported _ => false

namespace Parse

/-- What is assigned: an expression one level deeper. -/
def assignedValue (room : Nat) : Parse Expr :=
  nested (deeper room) fun inner => inner .assignment

/-- The relation `R` between productions holds of the steps, and sequences, repetitions, assignments
and recoveries inherit it from their parts. -/
structure Respects (R : {α : Type} → Parse α → Parse α → Prop) : Prop where
  pure {α : Type} (a : α) : R (pure a) (pure a)
  bind {α β : Type} {p q : Parse α} {f g : α → Parse β} :
    R p q → (∀ a, R (f a) (g a)) → R (p >>= f) (q >>= g)
  here : R here here
  skip : R skip skip
  isAt (kinds : List TokenKind) : R (isAt kinds) (isAt kinds)
  atEnd : R atEnd atEnd
  accept_bind {α : Type} {f g : Option Site → Parse α} (kinds : List TokenKind) :
    R (f none) (g none) → (∀ s t, s.token = t.token → R (f (some s)) (g (some t))) →
      R (accept kinds >>= f) (accept kinds >>= g)
  refuse {α : Type} {cause : Cause} :
    cause.isSyntactic → cause.isPanic → R (refuse cause : Parse α) (refuse cause)
  -- here the place of the equals sign matters, which is known only if the production is seen whole
  assigned {target target' : Parse Expr} {room room' : Nat} :
    R target target' → R (assignedValue room) (assignedValue room') →
      R (assigned target (assignedValue room)) (assigned target' (assignedValue room'))
  many {α : Type} {p q : Parse (Option α)} : R p q → R (many p) (many q)
  recovering {p q : Parse Stmt} : R p q → R (recovering p) (recovering q)

/-- Either there are as many levels, or there are more, and `R` bears with a refusal. -/
def Deepens (R : {α : Type} → Parse α → Parse α → Prop) (room room' : Nat) : Prop :=
  room = room' ∨ room < room' ∧ ∀ {α : Type} (q : Parse α), R (refuse .tooDeeplyNested) q

namespace Deepens

variable {R : {α : Type} → Parse α → Parse α → Prop} {room room' : Nat}

theorem refl (room : Nat) : Deepens R room room :=
  .inl rfl

theorem of_le (h : room ≤ room')
    (hR : ∀ {α : Type} (q : Parse α), R (Parse.refuse .tooDeeplyNested) q) :
    Deepens R room room' := by
  rcases Nat.eq_or_lt_of_le h with h | h
  · exact .inl h
  · exact .inr ⟨h, hR⟩

theorem exists_succ (h : Deepens R (room + 1) room') :
    ∃ r, room' = r + 1 ∧ Deepens R room r := by
  rcases h with rfl | ⟨h, hR⟩
  · exact ⟨room, rfl, refl room⟩
  · obtain ⟨r, rfl⟩ := Nat.exists_eq_add_one.2 (Nat.lt_of_le_of_lt (Nat.zero_le _) h)
    exact ⟨r, rfl, of_le (by omega) hR⟩

end Deepens

namespace Respects

variable {R : {α : Type} → Parse α → Parse α → Prop} (h : Respects R) {room room' : Nat}

include h

theorem expect (kind : TokenKind) (message : String) :
    R (expect kind message) (expect kind message) := by
  refine h.accept_bind [kind] (h.refuse rfl rfl) fun s t hst => ?_
  show R (Pure.pure s.token) (Pure.pure t.token)
  rw [hst]
  exact h.pure t.token

theorem expect_bind {α : Type} {f g : Token → Parse α} (kind : TokenKind) (message : String)
    (hfg : ∀ t, R (f t) (g t)) :
    R (Parse.expect kind message >>= f) (Parse.expect kind message >>= g) :=
  h.bind (h.expect kind message) hfg

theorem skip_bind {α : Type} {f g : Unit → Parse α} (hfg : R (f ()) (g ())) :
    R (Parse.skip >>= f) (Parse.skip >>= g) :=
  h.bind h.skip fun _ => hfg

/-- Without levels both productions refuse, or the first one does and the second one may go on. -/
theorem refuse_deepens {α : Type} {q : Nat → Parse α} (hr : Deepens R 0 room')
    (hq : q 0 = Parse.refuse .tooDeeplyNested) : R (Parse.refuse .tooDeeplyNested) (q room') := by
  rcases hr with rfl | ⟨-, hR⟩
  · rw [hq]
    exact h.refuse rfl rfl
  · exact hR _

/-! ### Expressions -/

theorem operation (operators : List TokenKind) {operand operand' : Parse Expr}
    (ho : R operand operand') : R (operation operators operand) (operation operators operand') := by
  refine h.accept_bind operators (h.pure none) fun s t hst => h.bind ho fun e => ?_
  rw [hst]
  exact h.pure _

theorem leftAssoc (operators : List TokenKind) {operand operand' : Parse Expr}
    (ho : R operand operand') : R (leftAssoc operators operand) (leftAssoc operators operand') := by
  rw [leftAssoc_eq, leftAssoc_eq]
  exact h.bind ho fun _ => h.bind (h.many (h.operation operators ho)) fun _ => h.pure _

section Level

/-- The expressions one level deeper are related, if there are levels left for both. -/
private def DeeperRelated (R : {α : Type} → Parse α → Parse α → Prop) (room room' : Nat) : Prop :=
  ∀ inner ∈ deeper room, ∀ inner' ∈ deeper room', ∀ p : Precedence, R (inner p) (inner' p)

private theorem nested_deeper {f : (Precedence → Parse Expr) → Parse Expr}
    (hr : Deepens R room room') (hdeeper : DeeperRelated R room room')
    (hf : ∀ inner inner' : Precedence → Parse Expr, (∀ p, R (inner p) (inner' p)) →
      R (f inner) (f inner')) :
    R (nested (deeper room) f) (nested (deeper room') f) := by
  cases room with
  | zero => exact h.refuse_deepens (q := fun room => nested (deeper room) f) hr rfl
  | succ room =>
    obtain ⟨r, rfl, -⟩ := hr.exists_succ
    exact hf _ _ (hdeeper _ rfl _ rfl)

private theorem expression_operators {p : Precedence} (hp : p.operators ≠ [])
    (hnext : R (Parse.expression room p.next) (Parse.expression room' p.next)) :
    R (Parse.expression room p) (Parse.expression room' p) := by
  rw [expression_of_operators room hp, expression_of_operators room' hp]
  exact h.leftAssoc p.operators hnext

variable (hr : Deepens R room room') (hdeeper : DeeperRelated R room room')

include hr hdeeper

private theorem expression_primary_level :
    R (Parse.expression room .primary) (Parse.expression room' .primary) := by
  have literal (value : Literal) : R (Parse.skip >>= fun _ => Pure.pure (Expr.literal value))
      (Parse.skip >>= fun _ => Pure.pure (Expr.literal value)) := h.skip_bind (h.pure _)
  rw [expression_primary, expression_primary]
  refine h.bind h.here fun token => ?_
  unfold primaryAt
  split
  · exact literal _
  · exact literal _
  · exact literal _
  · exact literal _
  · exact h.skip_bind (h.pure _)
  · exact h.nested_deeper hr hdeeper fun _ _ hi => h.skip_bind <| h.bind (hi _)
      fun _ => h.expect_bind _ _ fun _ => h.pure _
  · exact h.refuse rfl rfl

private theorem expression_unary_level :
    R (Parse.expression room .unary) (Parse.expression room' .unary) := by
  rw [expression_unary, expression_unary]
  refine h.accept_bind _ (h.expression_primary_level hr hdeeper) fun s t hst => ?_
  refine h.bind (h.nested_deeper hr hdeeper fun _ _ hi => hi _) fun operand => ?_
  rw [hst]
  exact h.pure _

private theorem expression_assignment_level
    (he : R (Parse.expression room .equality) (Parse.expression room' .equality)) :
    R (Parse.expression room .assignment) (Parse.expression room' .assignment) := by
  rw [expression_assignment, expression_assignment]
  exact h.assigned he (h.nested_deeper hr hdeeper fun _ _ hi => hi _)

private theorem expression_level (p : Precedence) :
    R (Parse.expression room p) (Parse.expression room' p) := by
  have unary := h.expression_unary_level hr hdeeper
  have factor := h.expression_operators (p := .factor) (by decide) unary
  have term := h.expression_operators (p := .term) (by decide) factor
  have comparison := h.expression_operators (p := .comparison) (by decide) term
  have equality := h.expression_operators (p := .equality) (by decide) comparison
  have assignment := h.expression_assignment_level hr hdeeper equality
  cases p with
  | default => rwa [expression_default, expression_default]
  | assignment => exact assignment
  | equality => exact equality
  | comparison => exact comparison
  | term => exact term
  | factor => exact factor
  | unary => exact unary
  | primary => exact h.expression_primary_level hr hdeeper

end Level

theorem expression (hr : Deepens R room room') (p : Precedence) :
    R (expression room p) (expression room' p) := by
  induction room generalizing room' p with
  | zero => exact h.expression_level hr (by simp [DeeperRelated, deeper]) p
  | succ room ih =>
    obtain ⟨r, rfl, hr'⟩ := hr.exists_succ
    refine h.expression_level hr ?_ p
    rintro _ ⟨⟩ _ ⟨⟩ q
    exact ih hr' q

/-! ### Statements -/

theorem initializerWith {expr expr' : Parse Expr} (he : R expr expr') :
    R (initializerWith expr) (initializerWith expr') :=
  h.accept_bind _ (h.pure none) fun _ _ _ => h.bind he fun _ => h.pure _

/-- An expression with the semicolon that closes its statement. -/
private theorem terminated {expr expr' : Parse Expr} (he : R expr expr') (f : Expr → Stmt)
    (message : String) :
    R (expr >>= fun e => Parse.expect .semicolon message >>= fun _ => Pure.pure (f e))
      (expr' >>= fun e => Parse.expect .semicolon message >>= fun _ => Pure.pure (f e)) :=
  h.bind he fun _ => h.expect_bind _ _ fun _ => h.pure _

private theorem item_of_declaration {stop : Cursor → Bool}
    (hs : stop = blockEnd ∨ stop = Cursor.atEnd)
    (hd : R (declaration .standard room) (declaration .standard room')) :
    R (item stop room) (item stop room') := by
  let next (room : Nat) (b : Bool) : Parse (Option (Option Stmt)) :=
    if b then Pure.pure none else declaration .standard room >>= fun s => Pure.pure (some s)
  have key (b : Bool) : R (next room b) (next room' b) := by
    cases b with
    | true => exact h.pure none
    | false => exact h.bind hd fun _ => h.pure _
  rcases hs with rfl | rfl
  · rw [item_blockEnd, item_blockEnd]
    exact h.bind (h.isAt _) fun _ => h.bind h.atEnd fun _ => key _
  · rw [item_atEnd, item_atEnd]
    exact h.bind h.atEnd fun _ => key _

private theorem leading_level (hr : Deepens R room room') (k : TokenKind)
    (hblock : R (leading room .openCurly) (leading room' .openCurly)) :
    R (leading room k) (leading room' k) := by
  have he := h.expression hr .assignment
  by_cases hk : k ∈ Tolerant.statementKinds
  · simp only [Tolerant.statementKinds, List.mem_cons, List.not_mem_nil, or_false] at hk
    rcases hk with rfl | rfl | rfl
    · rw [leading_kwVar, leading_kwVar]
      exact h.skip_bind <| h.expect_bind _ _ fun _ => h.bind (h.initializerWith he) fun _ =>
        h.expect_bind _ _ fun _ => h.pure _
    · rw [leading_kwPrint, leading_kwPrint]
      exact h.skip_bind (h.terminated he _ _)
    · exact hblock
  · rw [leading_of_not_mem room hk, leading_of_not_mem room' hk]
    exact h.terminated he _ _

private theorem declaration_of_leading (hl : ∀ k, R (leading room k) (leading room' k)) :
    R (declaration .standard room) (declaration .standard room') := by
  rw [declaration_eq_recovering, declaration_eq_recovering]
  exact h.bind h.here fun t => h.recovering (hl t.kind)

theorem leading (hr : Deepens R room room') (k : TokenKind) :
    R (leading room k) (leading room' k) := by
  induction room generalizing room' k with
  | zero =>
    exact h.leading_level hr k
      (h.refuse_deepens (q := fun room => Parse.leading room .openCurly) hr rfl)
  | succ room ih =>
    obtain ⟨r, rfl, hr'⟩ := hr.exists_succ
    refine h.leading_level hr k ?_
    rw [leading_openCurly, leading_openCurly]
    exact h.skip_bind <|
      h.bind (h.many (h.item_of_declaration (.inl rfl) (h.declaration_of_leading (ih hr'))))
        fun _ => h.expect_bind _ _ fun _ => h.pure _

theorem declaration (hr : Deepens R room room') :
    R (declaration .standard room) (declaration .standard room') :=
  h.declaration_of_leading (h.leading hr)

theorem item {stop : Cursor → Bool} (hs : stop = blockEnd ∨ stop = Cursor.atEnd)
    (hr : Deepens R room room') : R (item stop room) (item stop room') :=
  h.item_of_declaration hs (h.declaration hr)

theorem program (hr : Deepens R room room') :
    R (program .standard room) (program .standard room') := by
  rw [program_eq, program_eq]
  exact h.bind (h.many (h.item (.inr rfl) hr)) fun _ => h.pure _

end Respects

end Parse

end Lox
