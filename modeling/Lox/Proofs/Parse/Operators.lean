import Lox.Proofs.Parse.Run

/-!
# Operators and levels

The productions of expressions as equations between the levels, and the tokens that go on an
expression of a precedence: behind an expression that was read none of them stands.
-/

namespace Lox

namespace Precedence

/-- The kinds of tokens that go on an expression of the precedence. -/
def joining : Precedence → List TokenKind
  | unary | primary => []
  | factor => factor.operators
  | term => term.operators ++ factor.operators
  | comparison => comparison.operators ++ (term.operators ++ factor.operators)
  | equality => equality.operators ++ (comparison.operators ++ (term.operators ++ factor.operators))
  | default | assignment =>
    .assignment ::
      (equality.operators ++ (comparison.operators ++ (term.operators ++ factor.operators)))

theorem joining_of_operators {p : Precedence} (h : p.operators ≠ []) :
    p.joining = p.operators ++ p.next.joining := by
  revert h
  cases p <;> decide

theorem joining_next_subset (p : Precedence) : p.next.joining ⊆ p.joining := by
  cases p <;> decide

theorem not_mem_joining_next {p : Precedence} {k : TokenKind} (h : k ∈ p.operators) :
    k ∉ p.next.joining := by
  have key : ∀ k ∈ p.operators, k ∉ p.next.joining := by cases p <;> decide
  exact key k h

end Precedence

namespace Cursor

theorem isAt_joining_eq_false_iff {p : Precedence} (hp : p.operators ≠ []) {c : Cursor} :
    c.isAt p.joining = false ↔ c.isAt p.operators = false ∧ c.isAt p.next.joining = false := by
  rw [Precedence.joining_of_operators hp, isAt_append, Bool.or_eq_false_iff]

theorem Passes.isAt_eq_false {c d : Cursor} {t : Token} (h : c.Passes [t] d)
    {kinds : List TokenKind} (ht : t.kind ∉ kinds) : c.isAt kinds = false := by
  rw [← Bool.not_eq_true, h.isAt_iff]
  exact ht

end Cursor

namespace Parse

/-- An operator with its right operand, or nothing if none of the operators follows. -/
def operation (operators : List TokenKind) (operand : Parse Expr) :
    Parse (Option (Token × Expr)) := do
  match ← accept operators with
  | some operator => return some (operator.token, ← operand)
  | none => return none

/-- Joins an operand to what stands to the left of it. -/
def joinLeft (left : Expr) (operation : Token × Expr) : Expr :=
  .binary left operation.1 operation.2

theorem leftAssoc_eq (operators : List TokenKind) (operand : Parse Expr) :
    leftAssoc operators operand =
      operand >>= fun first => many (operation operators operand) >>= fun more =>
        pure (more.foldl joinLeft first) :=
  rfl

/-- What is read at the token of an operand without a prefix operator. -/
def primaryAt (deeper : Option (Precedence → Parse Expr)) (token : Token) : Parse Expr :=
  match token.literal, token.kind with
  | some value, _ => do skip; return .literal value
  | none, .kwFalse => do skip; return .literal (.bool false)
  | none, .kwTrue => do skip; return .literal (.bool true)
  | none, .kwNil => do skip; return .literal .nil
  | none, .identifier => do skip; return .var token
  | none, .openParen => groupingWith deeper
  | none, _ => refuse .expectedExpression

/-- Assigns the value; if the target is no variable, it is kept alone. -/
def assigning (target : Expr) (equals : Site) (value : Expr) : Parse Expr :=
  match target with
  | .var name => pure (.assign name value)
  | _ => keeping target equals

/-- A target and, behind an equals sign, the value that is assigned to it. -/
def assigned (target value : Parse Expr) : Parse Expr :=
  target >>= fun target => accept [.assignment] >>= fun equals =>
    match equals with
    | none => pure target
    | some equals => value >>= assigning target equals

/-! ### The levels -/

theorem expression_of_operators (room : Nat) {p : Precedence} (hp : p.operators ≠ []) :
    expression room p = leftAssoc p.operators (expression room p.next) := by
  rw [expression_eq]
  cases p with
  | equality | comparison | term | factor => rfl
  | default | assignment | unary | primary => exact absurd rfl hp

theorem expression_default (room : Nat) :
    expression room .default = expression room .assignment := by
  rw [expression_eq]
  rfl

theorem expression_assignment (room : Nat) :
    expression room .assignment =
      assigned (expression room .equality)
        (nested (deeper room) fun inner => inner .assignment) := by
  rw [expression_eq]
  rfl

theorem expression_unary (room : Nat) :
    expression room .unary =
      accept [.not, .dash] >>= fun operator =>
        match operator with
        | some operator => nested (deeper room) (fun inner => inner .unary) >>= fun operand =>
          pure (.unary operator.token operand)
        | none => expression room .primary := by
  rw [expression_eq]
  rfl

theorem expression_primary (room : Nat) :
    expression room .primary = here >>= primaryAt (deeper room) := by
  rw [expression_eq]
  rfl

theorem grouping_succ (room : Nat) :
    groupingWith (deeper (room + 1)) =
      skip >>= fun _ => expression room .assignment >>= fun e =>
        expect .closeParen "Expect ')' after expression." >>= fun _ => pure (.grouping e) := by
  rw [← expression_default]
  rfl

end Parse

end Lox
