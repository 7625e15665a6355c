import Lox.Literal
import Lox.Position
import Lox.Token.Kind

/-!
# Tokens

A token is a lexeme with its kind, its place in the text and, for a constant, its value.  A token
that spans lines is placed on its last line, in column 1.
-/

namespace Lox

structure Token extends Position where
  kind : TokenKind
  lexeme : String
  literal : Option Literal
deriving DecidableEq

namespace Token

/-- The kind, the lexeme and the value, as they are logged. -/
def summary (t : Token) : String :=
  let named := t.kind.name ++ " " ++ t.lexeme
  match t.literal with
  | some value => named ++ " " ++ value.text
  | none => named

def isOneOf (t : Token) (kinds : List TokenKind) : Bool :=
  kinds.contains t.kind

def same (t u : Token) : Bool :=
  t.kind = u.kind && t.lexeme = u.lexeme && t.toPosition = u.toPosition &&
    match t.literal, u.literal with
    | some v, some w => v.same w
    | none, none => true
    | _, _ => false

end Token

end Lox
