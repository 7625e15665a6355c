import Lox.Parser.Grammar
import Lox.Proofs.Parser.Simulation

/-!
# Expressions of a parser

The productions of expressions of a parser simulate those of `Parse`, with the number of levels that
are left by the depth of the parser (`Frame.simulates_expression`, `Frame.simulates_binary`,
`Frame.simulates_grouping`).  The induction is on this number.
-/

namespace Lox

namespace Parser

/-- An operator of the precedence with its right operand, if there is one. -/
def operation (p : Precedence) : Run (Option (Token × Expr)) := do
  if ← matchKinds p.operators then
    let operator ← previous
    let right ← expression p.next
    return some (operator, right)
  else
    return none

theorem operations_eq (p : Precedence) (left : Expr) :
    operations (p, left) = operation p >>= fun o =>
      o.elim (pure left) fun more => operations (p, Parse.joinLeft left more) := by
  rw [operations, operation, bind_assoc]
  congr 1
  funext b
  cases b with
  | false => rfl
  | true => simp only [if_true, bind_assoc, pure_bind]; rfl

end Parser

namespace Frame

variable {F : Frame}

/-- The expressions one level deeper, if there is such a level, are simulated. -/
def SimulatesDeeper (F : Frame) : Prop :=
  ∀ inner ∈ Parse.deeper F.room, F.room ≠ 0 ∧
    ∀ p, F.deeper.Simulates (Parser.expression p) (inner p)

theorem room_eq_zero_of_deeper (h : Parse.deeper F.room = none) : F.room = 0 := by
  cases hroom : F.room with
  | zero => rfl
  | succ room =>
    rw [hroom] at h
    cases h

theorem SimulatesDeeper.nested {α : Type} (h : F.SimulatesDeeper) {p : Parser.Run α}
    {q : (Precedence → Parse Expr) → Parse α}
    (hq : ∀ inner, (∀ p, F.deeper.Simulates (Parser.expression p) (inner p)) →
      F.deeper.Simulates p (q inner)) :
    F.Simulates (Parser.nested p) (Parse.nested (Parse.deeper F.room) q) :=
  .nested room_eq_zero_of_deeper fun inner hi => ⟨(h inner hi).1, hq inner (h inner hi).2⟩

theorem SimulatesDeeper.grouping (h : F.SimulatesDeeper) :
    F.Simulates Parser.grouping (Parse.groupingWith (Parse.deeper F.room)) := by
  rw [Parser.grouping, Parser.groupingWith]
  refine h.nested fun inner hinner => simulates_skip ?_
  exact (hinner .default).bind fun e => (simulates_expect _ _).bind fun _ => simulates_pure _

theorem SimulatesDeeper.primary (h : F.SimulatesDeeper) :
    F.Simulates Parser.primary (Parse.expression F.room .primary) := by
  have literal (value : Literal) :
      F.Simulates (Parser.advance >>= fun _ => pure (Expr.literal value))
        (Parse.skip >>= fun _ => pure (.literal value)) :=
    simulates_skip (simulates_pure _)
  refine ⟨Parse.forward_expression F.room .primary, fun {c} hc => ?_⟩
  rw [Parser.primary, Parser.primaryWith, Parse.expression_primary, Parse.here_bind_apply]
  refine (performs_current hc).bind_quiet ?_
  unfold Parse.primaryAt
  cases hl : c.current.literal with
  | some value => exact (literal value).performs hc
  | none =>
    cases hk : c.current.kind with
    | kwFalse | kwTrue | kwNil => exact (literal _).performs hc
    | identifier =>
      -- the token that is kept is the one just passed, since this is not the end
      have hat : c.isAt [.identifier] = true :=
        ((F.stream.ended_cursor.of_le hc).isAt_iff (by decide)).2 (by simp [hk])
      obtain ⟨t, -, hpass⟩ := Cursor.exists_passes_of_isAt hat
      have hprevious : c.advance.previous = c.current := by rw [hpass.previous_eq, hpass.current_eq]
      have hadvance := performs_advance hc
      rw [hprevious] at hadvance
      exact hadvance.bind_quiet (performs_pure (Expr.var c.current) c.advance)
    | openParen => exact h.grouping.performs hc
    | _ => exact performs_throw ⟨.expectedExpression, c.site⟩ c

theorem SimulatesDeeper.unary (h : F.SimulatesDeeper) :
    F.Simulates Parser.unary (Parse.expression F.room .unary) := by
  rw [Parser.unary, Parser.unaryWith, Parse.expression_unary]
  refine .accept_bind h.primary fun operator => Simulates.bind ?_ fun _ => simulates_pure _
  exact h.nested fun inner hinner => hinner .unary

theorem SimulatesDeeper.assignment (h : F.SimulatesDeeper)
    (hequality : F.Simulates (Parser.expression .equality) (Parse.expression F.room .equality)) :
    F.Simulates Parser.assignment (Parse.expression F.room .assignment) := by
  rw [Parser.assignment, Parser.assignmentWith, Parse.expression_assignment]
  refine hequality.bind fun target => .accept_bind (simulates_pure target) fun equals => ?_
  refine Simulates.bind ?_ fun value => ?_
  · exact h.nested fun inner hinner => hinner .assignment
  · unfold Parse.assigning
    cases target with
    | var name => exact simulates_pure _
    | _ =>
      exact (simulates_report ⟨.invalidAssignmentTarget, equals⟩).bind fun _ => simulates_pure _

/-- The operators of a precedence with their right operands, joined one by one to what is there. -/
theorem simulates_operations {p : Precedence}
    (h : F.Simulates (Parser.expression p.next) (Parse.expression F.room p.next)) (left : Expr) :
    F.Simulates (Parser.operations (p, left))
      (Parse.many (Parse.operation p.operators (Parse.expression F.room p.next)) >>= fun more =>
        pure (more.foldl Parse.joinLeft left)) := by
  have hstep : F.Simulates (Parser.operation p)
      (Parse.operation p.operators (Parse.expression F.room p.next)) :=
    .accept_bind (simulates_pure none) fun operator => h.bind fun _ => simulates_pure _
  have hmany := Simulates.loop (Parser.operations_eq p) hstep
    (Parse.getsOn_operation _ h.forward) left
  exact hmany

theorem simulates_leftAssoc {p : Precedence}
    (h : F.Simulates (Parser.expression p.next) (Parse.expression F.room p.next)) :
    F.Simulates (Parser.binary p)
      (Parse.leftAssoc p.operators (Parse.expression F.room p.next)) := by
  rw [Parser.binary, Parser.binaryWith, Parse.leftAssoc_eq]
  exact h.bind fun first => simulates_operations h first

theorem expression_of_operators {p : Precedence} (hp : p.operators ≠ []) :
    Parser.expression p = Parser.binary p := by
  rw [Parser.expression.eq_def]
  cases p with
  | equality | comparison | term | factor => rfl
  | default | assignment | unary | primary => exact absurd rfl hp

theorem SimulatesDeeper.expression (h : F.SimulatesDeeper) (p : Precedence) :
    F.Simulates (Parser.expression p) (Parse.expression F.room p) := by
  have operators {p : Precedence} (hp : p.operators ≠ [])
      (h : F.Simulates (Parser.expression p.next) (Parse.expression F.room p.next)) :
      F.Simulates (Parser.expression p) (Parse.expression F.room p) := by
    rw [expression_of_operators hp, Parse.expression_of_operators F.room hp]
    exact simulates_leftAssoc h
  have primary : F.Simulates (Parser.expression .primary) (Parse.expression F.room .primary) := by
    rw [Parser.expression]
    exact h.primary
  have unary : F.Simulates (Parser.expression .unary) (Parse.expression F.room .unary) := by
    rw [Parser.expression]
    exact h.unary
  have factor := operators (p := .factor) (by decide) unary
  have term := operators (p := .term) (by decide) factor
  have comparison := operators (p := .comparison) (by decide) term
  have equality := operators (p := .equality) (by decide) comparison
  have assignment := h.assignment equality
  cases p with
  | default =>
    rw [Parser.expression, Parse.expression_default]
    exact assignment
  | assignment =>
    rw [Parser.expression]
    exact assignment
  | equality => exact equality
  | comparison => exact comparison
  | term => exact term
  | factor => exact factor
  | unary => exact unary
  | primary => exact primary

theorem simulatesDeeper (F : Frame) : F.SimulatesDeeper := by
  generalize hroom : F.room = room
  induction room generalizing F with
  | zero =>
    intro inner hi
    rw [hroom] at hi
    cases hi
  | succ room ih =>
    have hdeeper : F.deeper.room = room := by rw [room_deeper, hroom, Nat.add_sub_cancel]
    intro inner hi
    rw [hroom] at hi ⊢
    cases hi
    exact ⟨Nat.succ_ne_zero room, fun p => hdeeper ▸ (ih F.deeper hdeeper).expression p⟩

/-- A parser reads every expression as `Parse` does with the levels that are left. -/
theorem simulates_expression (F : Frame) (p : Precedence) :
    F.Simulates (Parser.expression p) (Parse.expression F.room p) :=
  F.simulatesDeeper.expression p

theorem simulates_assignment (F : Frame) :
    F.Simulates Parser.assignment (Parse.expression F.room .assignment) :=
  F.simulatesDeeper.assignment (F.simulates_expression .equality)

theorem simulates_unary (F : Frame) :
    F.Simulates Parser.unary (Parse.expression F.room .unary) :=
  F.simulatesDeeper.unary

theorem simulates_primary (F : Frame) :
    F.Simulates Parser.primary (Parse.expression F.room .primary) :=
  F.simulatesDeeper.primary

theorem simulates_binary (F : Frame) (p : Precedence) :
    F.Simulates (Parser.binary p) (Parse.binary F.room p) :=
  simulates_leftAssoc (F.simulates_expression p.next)

theorem simulates_grouping (F : Frame) :
    F.Simulates Parser.grouping (Parse.grouping F.room) :=
  F.simulatesDeeper.grouping

theorem simulates_line (F : Frame) : F.Simulates Parser.line (Parse.line F.room) :=
  (F.simulates_expression .default).noting (fun _ => rfl) fun _ => rfl

end Frame

end Lox
