import Lox.Tree

/-!
# Outlines

The outline of a tree is its fully parenthesized form with the operator in front, such as
`(+ 1 (* 2 3))`.  The statements of a block stand on one line, those of a program on a line each.
-/

namespace Lox

/-- A head with its parts in parentheses, separated by single blanks. -/
def parenthesize (head : String) (parts : List String) : String :=
  "(" ++ head ++ String.join (parts.map (" " ++ ·)) ++ ")"

def Expr.outline : Expr → String
  | literal value => value.text
  | grouping inner => parenthesize "group" [inner.outline]
  | unary operator operand => parenthesize operator.lexeme [operand.outline]
  | binary left operator right => parenthesize operator.lexeme [left.outline, right.outline]
  | var name => name.lexeme
  | assign name value => parenthesize "=" [name.lexeme, value.outline]

namespace Stmt

mutual

def outline : Stmt → String
  | expression expr => parenthesize ";" [expr.outline]
  | print expr => parenthesize "print" [expr.outline]
  | varDecl name none => parenthesize "var" [name.lexeme]
  | varDecl name (some value) => parenthesize "var" [name.lexeme, "=", value.outline]
  | block body => parenthesize "block" (outlines body)

def outlines : List Stmt → List String
  | [] => []
  | s :: ss => s.outline :: outlines ss

end

end Stmt

def outlineProgram (program : List Stmt) : String :=
  "\n".intercalate (Stmt.outlines program)

end Lox
