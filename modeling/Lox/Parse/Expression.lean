import Lox.Parse.Outcome
import Lox.Precedence
import Lox.Tree

/-!
# Expressions

Expressions are read by recursive descent over the precedence levels.  Groupings, operands of prefix
operators and right-hand sides of assignments lie one level deeper, and the number of levels that
are left bounds the descent.
-/

namespace Lox

namespace Parse

/-- How deeply groupings, prefix operators, assignments and blocks may nest. -/
def maxNesting : Nat := 128

/-! ### The productions of one level

Each takes as `deeper` the expressions of the next level, or nothing if no level is left. -/

section Level

variable (deeper : Option (Precedence → Parse Expr))

/-- Passes the opening parenthesis without looking at it. -/
def groupingWith : Parse Expr :=
  nested deeper fun inner => do
    skip
    let expr ← inner .default
    let _ ← expect .closeParen "Expect ')' after expression."
    return .grouping expr

/-- A token that carries a value is a literal, whatever its kind. -/
def primaryWith : Parse Expr := do
  let token ← here
  match token.literal, token.kind with
  | some value, _ => do skip; return .literal value
  | none, .kwFalse => do skip; return .literal (.bool false)
  | none, .kwTrue => do skip; return .literal (.bool true)
  | none, .kwNil => do skip; return .literal .nil
  | none, .identifier => do skip; return .var token
  | none, .openParen => groupingWith deeper
  | none, _ => refuse .expectedExpression

def unaryWith : Parse Expr := do
  match ← accept [.not, .dash] with
  | some operator => return .unary operator.token (← nested deeper fun inner => inner .unary)
  | none => primaryWith deeper

/-- Operands joined by the operators, grouped to the left. -/
def leftAssoc (operators : List TokenKind) (operand : Parse Expr) : Parse Expr := do
  let first ← operand
  let more ← many do
    match ← accept operators with
    | some operator => return some (operator.token, ← operand)
    | none => return none
  return more.foldl (fun left (operator, right) => .binary left operator right) first

def factorWith : Parse Expr :=
  leftAssoc Precedence.factor.operators (unaryWith deeper)

def termWith : Parse Expr :=
  leftAssoc Precedence.term.operators (factorWith deeper)

def comparisonWith : Parse Expr :=
  leftAssoc Precedence.comparison.operators (termWith deeper)

def equalityWith : Parse Expr :=
  leftAssoc Precedence.equality.operators (comparisonWith deeper)

/-- If the target of an assignment is not a variable, this is noted at the equals sign and the
target alone is kept: what follows can still be read. -/
def assignmentWith : Parse Expr := do
  let target ← equalityWith deeper
  match ← accept [.assignment] with
  | none => return target
  | some equals =>
    let value ← nested deeper fun inner => inner .assignment
    match target with
    | .var name => return .assign name value
    | _ => do
      note ⟨.invalidAssignmentTarget, equals⟩
      return target

def expressionWith : Precedence → Parse Expr
  | .default | .assignment => assignmentWith deeper
  | .equality => equalityWith deeper
  | .comparison => comparisonWith deeper
  | .term => termWith deeper
  | .factor => factorWith deeper
  | .unary => unaryWith deeper
  | .primary => primaryWith deeper

end Level

/-! ### The productions with a number of levels left -/

/-- An expression whose loosest operator binds at least as tightly as the given precedence, when
`room` further levels may be opened. -/
def expression : (room : Nat) → Precedence → Parse Expr
  | 0 => expressionWith none
  | room + 1 => expressionWith (some (expression room))

/-- The expressions one level deeper. -/
def deeper : (room : Nat) → Option (Precedence → Parse Expr)
  | 0 => none
  | room + 1 => some (expression room)

theorem expression_eq (room : Nat) : expression room = expressionWith (deeper room) := by
  cases room <;> rfl

def grouping (room : Nat) : Parse Expr :=
  groupingWith (deeper room)

/-- Operands of the next precedence, joined by the operators of the given one. -/
def binary (room : Nat) (p : Precedence) : Parse Expr :=
  leftAssoc p.operators (expression room p.next)

end Parse

end Lox
