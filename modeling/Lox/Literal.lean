import Lox.Number

/-!
# Literals

The constants of the language.  Two literals are the same if they compare equal as values: a number
that is not a number differs from itself, and the two zeros are the same.
-/

namespace Lox

inductive Literal
  | number (value : Float)
  | string (value : String)
  | bool (value : Bool)
  | nil
deriving DecidableEq

namespace Literal

def text : Literal → String
  | number x => Number.text x
  | string s => s
  | bool true => "true"
  | bool false => "false"
  | nil => "nil"

def same : Literal → Literal → Bool
  | number x, number y => x == y
  | string s, string t => s = t
  | bool a, bool b => a = b
  | nil, nil => true
  | _, _ => false

end Literal

end Lox
