import Lox.Token

/-!
# Trees

Expressions and statements.  A tree keeps the very tokens of its operators and names, and the
parentheses of the source.
-/

namespace Lox

inductive Expr
  | literal (value : Literal)
  | grouping (inner : Expr)
  | unary (operator : Token) (operand : Expr)
  | binary (left : Expr) (operator : Token) (right : Expr)
  | var (name : Token)
  | assign (name : Token) (value : Expr)
deriving DecidableEq

inductive Stmt
  | expression (expr : Expr)
  | print (expr : Expr)
  | varDecl (name : Token) (initializer : Option Expr)
  | block (body : List Stmt)

end Lox
