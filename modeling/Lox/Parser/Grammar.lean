import Lox.Parser

/-!
# The grammar as a parser runs it

The productions call each other and themselves on the state that they find: the number of open
levels is looked up in the state, and a repetition goes on as long as the state says so.  Nothing in
them bounds the descent or the repetitions.  The calls go round through `expression` and `ruled`,
which find a production by its precedence or rule; each production is first given with what it calls
(`assignmentWith`), and then with these two (`assignment`).  The first form is reducible, as are
`attempt` and `nested`: the recursion has to be seen through them.
-/

namespace Lox

namespace Parser

/-! ### Expressions -/

section Expressions

variable (expression : Precedence → Run Expr)

/-- A misplaced equals sign is reported behind its value, and the target alone is kept. -/
@[reducible]
def assignmentWith : Run Expr := do
  let target ← expression .equality
  if ← matchKinds [.assignment] then
    let equals ← previous
    let value ← nested (expression .assignment)
    if let .var name := target then
      return .assign name value
    report (.atToken .invalidAssignmentTarget equals)
  return target

@[reducible]
def binaryWith (operations : Precedence × Expr → Run Expr) (p : Precedence) : Run Expr := do
  let first ← expression p.next
  operations (p, first)

/-- Passes the opening parenthesis without looking at it. -/
@[reducible]
def groupingWith : Run Expr :=
  nested do
    let _ ← advance
    let expr ← expression .default
    let _ ← expect .closeParen "Expect ')' after expression."
    return .grouping expr

/-- A token that carries a value is a literal, whatever its kind. -/
@[reducible]
def primaryWith : Run Expr := do
  let token ← current
  match token.literal, token.kind with
  | some value, _ => do let _ ← advance; return .literal value
  | none, .kwFalse => do let _ ← advance; return .literal (.bool false)
  | none, .kwTrue => do let _ ← advance; return .literal (.bool true)
  | none, .kwNil => do let _ ← advance; return .literal .nil
  | none, .identifier => return .var (← advance)
  | none, .openParen => groupingWith expression
  | none, _ => throw (.atToken .expectedExpression token)

@[reducible]
def unaryWith : Run Expr := do
  if ← matchKinds [.not, .dash] then
    let operator ← previous
    let operand ← nested (expression .unary)
    return .unary operator operand
  else
    primaryWith expression

end Expressions

mutual

/-- An expression that binds at least as tightly as the precedence says. -/
def expression : ReaderT Precedence Run Expr := fun p =>
  match p with
  | .default | .assignment => assignmentWith expression.run
  | .equality | .comparison | .term | .factor => binaryWith expression.run operations.run p
  | .unary => unaryWith expression.run
  | .primary => primaryWith expression.run
partial_fixpoint

/-- Joins operands to what stands to the left of them, as long as an operator follows. -/
def operations : ReaderT (Precedence × Expr) Run Expr := fun (p, left) => do
  if ← matchKinds p.operators then
    let operator ← previous
    let right ← expression.run p.next
    operations.run (p, .binary left operator right)
  else
    return left
partial_fixpoint

end

def assignment : Run Expr :=
  assignmentWith expression

def binary (p : Precedence) : Run Expr :=
  binaryWith expression operations p

def unary : Run Expr :=
  unaryWith expression

def primary : Run Expr :=
  primaryWith expression

def grouping : Run Expr :=
  groupingWith expression

/-- A single expression, missing after an error.  What follows it is left. -/
def line : Run (Option Expr) := do
  match ← attempt (expression .default) with
  | .ok expr => return some expr
  | .error d => do
    report d
    return none

/-! ### Statements -/

def expressionStmt : Run Stmt := do
  let value ← expression .default
  let _ ← expect .semicolon "Expect ';' after expression."
  return .expression value

/-- Passes the first token without looking at it, as all productions do that a rule has chosen. -/
def printStmt : Run Stmt := do
  let _ ← advance
  let value ← expression .default
  let _ ← expect .semicolon "Expect ';' after value."
  return .print value

def initializer : Run (Option Expr) := do
  if ← matchKinds [.assignment] then
    return some (← expression .default)
  else
    return none

def varDeclStmt : Run Stmt := do
  let _ ← advance
  let name ← expect .identifier "Expect variable name."
  let value ← initializer
  let _ ← expect .semicolon "Expect ';' after variable declaration."
  return .varDecl name value

section Rules

variable (ruled : StatementRule → Run Stmt)

/-- What the statement table has for the current token, else an expression statement. -/
@[reducible]
def statementWith : Run Stmt := do
  match (← get).rules .statements (← current).kind with
  | some rule => ruled rule
  | none => expressionStmt

/-- What the tables have for a declaration, without recovery. -/
@[reducible]
def declaredWith : Run Stmt := do
  match (← get).rules .declarations (← current).kind with
  | some rule => ruled rule
  | none => statementWith ruled

/-- A declaration or a statement.  After an error it is missing. -/
@[reducible]
def declarationWith : Run (Option Stmt) := do
  match ← attempt (declaredWith ruled) with
  | .ok stmt => return some stmt
  | .error d => do
    report d
    synchronize
    return none

end Rules

@[reducible]
def blockWith (blockBody : List Stmt → Run (List Stmt)) : Run Stmt :=
  nested do
    let _ ← advance
    let body ← blockBody []
    let _ ← expect .closeCurly "Expect '\x7d' after block."
    return .block body

mutual

/-- The production of a rule. -/
def ruled : ReaderT StatementRule Run Stmt := fun rule =>
  match rule with
  | .statement => statementWith ruled.run
  | .print => printStmt
  | .varDecl => varDeclStmt
  | .block => blockWith blockBody.run
partial_fixpoint

/-- Adds declarations to those of the block, up to a closing brace. -/
def blockBody : ReaderT (List Stmt) Run (List Stmt) := fun body => do
  if ← check .closeCurly then return body
  if ← atEnd then return body
  match ← declarationWith ruled.run with
  | some stmt => blockBody.run (body ++ [stmt])
  | none => blockBody.run body
partial_fixpoint

end

def statement : Run Stmt :=
  statementWith ruled

def declared : Run Stmt :=
  declaredWith ruled

def declaration : Run (Option Stmt) :=
  declarationWith ruled

def block : Run Stmt :=
  blockWith blockBody

/-- Adds declarations to those of the program, up to the end of the stream. -/
def programBody : ReaderT (List Stmt) Run (List Stmt) := fun body => do
  if ← atEnd then return body
  match ← declaration with
  | some stmt => programBody.run (body ++ [stmt])
  | none => programBody.run body
partial_fixpoint

def program : Run (List Stmt) :=
  programBody []

end Parser

end Lox
