import Lox.Parse.Expression
import Lox.Parse.Rules

/-!
# Statements and programs

A statement with a fault is noted once, and reading goes on at the next statement boundary; so a
program is read to its end whatever it contains.  Blocks lie one level deeper, on the same count of
levels as expressions.
-/

namespace Lox

namespace Parse

/-!
 ### The productions of one level

Each takes the `rules`, the expressions of its level as `expr`, and as `deeper` the declarations of
the next level, or nothing if no level is left.
-/

section Level

variable (rules : Rules) (expr : Parse Expr) (deeper : Option (Parse (Option Stmt)))

def expressionStmtWith : Parse Stmt := do
  let value ← expr
  let _ ← expect .semicolon "Expect ';' after expression."
  return .expression value

/-- Passes the first token without looking at it, as all productions do that a rule has chosen. -/
def printStmtWith : Parse Stmt := do
  skip
  let value ← expr
  let _ ← expect .semicolon "Expect ';' after value."
  return .print value

def initializerWith : Parse (Option Expr) := do
  match ← accept [.assignment] with
  | some _ => return some (← expr)
  | none => return none

def varDeclStmtWith : Parse Stmt := do
  skip
  let name ← expect .identifier "Expect variable name."
  let initializer ← initializerWith expr
  let _ ← expect .semicolon "Expect ';' after variable declaration."
  return .varDecl name initializer

def blockStmtWith : Parse Stmt :=
  nested deeper fun declaration => do
    skip
    let body ← many do
      if (← isAt [.closeCurly]) || (← atEnd) then return none else return some (← declaration)
    let _ ← expect .closeCurly "Expect '\x7d' after block."
    return .block body.reduceOption

/-- The production of a rule, if it is not chosen by the statement table.  A rule of the statement
table that asks it again is outside of the model: a parser would go round at the same token without
end, while here an expression is read (`Rules.IsPlain`). -/
def ruledWith : StatementRule → Parse Stmt
  | .statement => expressionStmtWith expr
  | .print => printStmtWith expr
  | .varDecl => varDeclStmtWith expr
  | .block => blockStmtWith deeper

def statementWith : Parse Stmt := do
  let token ← here
  ruledWith expr deeper ((rules .statements token.kind).getD .statement)

/-- The production of a rule. -/
def ruleWith : StatementRule → Parse Stmt
  | .statement => statementWith rules expr deeper
  | rule => ruledWith expr deeper rule

/-- A declaration or a statement.  After a fault it is missing. -/
def declarationWith : Parse (Option Stmt) := do
  let token ← here
  let rule := (rules .declarations token.kind).getD .statement
  match ← noting (ruleWith rules expr deeper rule) with
  | some stmt => return some stmt
  | none => do
    synchronize
    return none

end Level

/-! ### The productions with a number of levels left -/

def declaration (rules : Rules) : (room : Nat) → Parse (Option Stmt)
  | 0 => declarationWith rules (expression 0 .default) none
  | room + 1 =>
    declarationWith rules (expression (room + 1) .default) (some (declaration rules room))

/-- The declarations one level deeper. -/
def deeperDeclaration (rules : Rules) : (room : Nat) → Option (Parse (Option Stmt))
  | 0 => none
  | room + 1 => some (declaration rules room)

theorem declaration_eq (rules : Rules) (room : Nat) :
    declaration rules room =
      declarationWith rules (expression room .default) (deeperDeclaration rules room) := by
  cases room <;> rfl

/-- The production of a rule, when `room` further levels may be opened. -/
def statement (rules : Rules) (room : Nat) : StatementRule → Parse Stmt :=
  ruleWith rules (expression room .default) (deeperDeclaration rules room)

/-- Declarations up to the end of the stream; those with a fault are left out. -/
def program (rules : Rules) (room : Nat) : Parse (List Stmt) := do
  let body ← many do
    if ← atEnd then return none else return some (← declaration rules room)
  return body.reduceOption

/-- A single expression, missing after a fault.  What follows it is left. -/
def line (room : Nat) : Parse (Option Expr) :=
  noting (expression room .default)

end Parse

end Lox
