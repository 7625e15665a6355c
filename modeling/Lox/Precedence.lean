import Lox.Token.Kind

/-!
# Precedence

The precedence levels of expressions, loosest first.  The operands of a level are expressions of the
next one; the levels from `equality` to `factor` have binary operators, which group to the left.
-/

namespace Lox

inductive Precedence
  | default | assignment | equality | comparison | term | factor | unary | primary
deriving DecidableEq

namespace Precedence

/-- The next tighter level; the tightest one is its own. -/
def next : Precedence → Precedence
  | default => assignment
  | assignment => equality
  | equality => comparison
  | comparison => term
  | term => factor
  | factor => unary
  | unary => primary
  | primary => primary

/-- The number of looser levels. -/
def rank : Precedence → Nat
  | default => 0
  | assignment => 1
  | equality => 2
  | comparison => 3
  | term => 4
  | factor => 5
  | unary => 6
  | primary => 7

instance : Ord Precedence where
  compare p q := compare p.rank q.rank

def operators : Precedence → List TokenKind
  | equality => [.notEquals, .equals]
  | comparison => [.greater, .greaterEquals, .less, .lessEquals]
  | term => [.dash, .plus]
  | factor => [.slash, .star]
  | default | assignment | unary | primary => []

end Precedence

end Lox
