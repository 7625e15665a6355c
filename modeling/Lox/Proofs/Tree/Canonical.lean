import Lox.Precedence
import Lox.Tree

/-!
# Canonical trees

In a canonical tree the shape agrees with precedence: nothing stands below an operator that would
have to be put in parentheses there, and names are identifiers.  The depth of a tree counts
groupings, prefix operators, assignments and blocks on a path.
-/

namespace Lox

namespace Precedence

/-- The levels with binary operators. -/
def binaryLevels : List Precedence :=
  [equality, comparison, term, factor]

theorem mem_binaryLevels {p : Precedence} (h : p.operators ≠ []) : p ∈ binaryLevels := by
  revert h
  cases p <;> decide

/-- No operator belongs to two levels. -/
theorem eq_of_mem_operators {p q : Precedence} {k : TokenKind} (hp : k ∈ p.operators)
    (hq : k ∈ q.operators) : p = q := by
  have key : ∀ p ∈ binaryLevels, ∀ q ∈ binaryLevels, ∀ k ∈ p.operators, k ∈ q.operators → p = q := by
    decide
  have hmem {p : Precedence} (h : k ∈ p.operators) : p ∈ binaryLevels :=
    mem_binaryLevels (List.ne_nil_of_mem h)
  exact key p (hmem hp) q (hmem hq) k hp hq

theorem rank_next {p : Precedence} (h : p.operators ≠ []) : p.next.rank = p.rank + 1 := by
  revert h
  cases p <;> decide

/-- The level of a binary operator. -/
def ofOperator? (k : TokenKind) : Option Precedence :=
  binaryLevels.find? (k ∈ ·.operators)

theorem ofOperator?_eq_some_iff {p : Precedence} {k : TokenKind} :
    ofOperator? k = some p ↔ k ∈ p.operators := by
  constructor
  · intro h
    simpa using List.find?_some h
  · intro h
    have hp : p ∈ binaryLevels := mem_binaryLevels (List.ne_nil_of_mem h)
    cases hf : ofOperator? k with
    | none => exact absurd h (by simpa using List.find?_eq_none.1 hf p hp)
    | some q => rw [eq_of_mem_operators h (by simpa using List.find?_some hf)]

end Precedence

namespace Expr

/-- The level on which the outermost parts of the tree are joined; what is in one piece is on the
tightest. -/
def precedence : Expr → Precedence
  | literal _ | grouping _ | var _ => .primary
  | unary _ _ => .unary
  | binary _ operator _ => (Precedence.ofOperator? operator.kind).getD .default
  | assign _ _ => .assignment

def IsAssignment : Expr → Prop
  | assign _ _ => True
  | _ => False

/-- What may stand behind a prefix operator. -/
def IsOperand : Expr → Prop
  | unary _ _ | literal _ | grouping _ | var _ => True
  | binary _ _ _ | assign _ _ => False

/-- The parts of a binary operator of the level `p`: the left one binds at least as tightly, the
right one more tightly. -/
structure JoinedAt (p : Precedence) (left : Expr) (operator : Token) (right : Expr) : Prop where
  level : p ∈ Precedence.binaryLevels ∧ operator.kind ∈ p.operators
  unique : ∀ q ∈ Precedence.binaryLevels, operator.kind ∈ q.operators → q = p
  left : p.rank ≤ left.precedence.rank
  right : p.rank < right.precedence.rank

def Canonical : Expr → Prop
  | literal _ => True
  | grouping inner => inner.Canonical
  | unary operator operand =>
    operator.kind ∈ [TokenKind.not, .dash] ∧ operand.IsOperand ∧ ¬operand.IsAssignment ∧
      operand.Canonical
  | binary left operator right =>
    (∃ p, JoinedAt p left operator right) ∧ ¬left.IsAssignment ∧ ¬right.IsAssignment ∧
      left.Canonical ∧ right.Canonical
  | var name => name.kind = .identifier
  | assign name value => name.kind = .identifier ∧ value.Canonical

/-- The largest number of groupings, prefix operators and assignments on a path. -/
def depth : Expr → Nat
  | literal _ | var _ => 0
  | grouping inner => inner.depth + 1
  | unary _ operand => operand.depth + 1
  | binary left _ right => max left.depth right.depth
  | assign _ value => value.depth + 1

theorem precedence_binary {left right : Expr} {operator : Token} {p : Precedence}
    (h : operator.kind ∈ p.operators) : (binary left operator right).precedence = p := by
  rw [precedence, Precedence.ofOperator?_eq_some_iff.2 h]
  rfl

/-- Operators of two operands are looser than operators in front of one. -/
theorem rank_precedence_binary_lt (left : Expr) (operator : Token) (right : Expr) :
    (binary left operator right).precedence.rank < Precedence.unary.rank := by
  rw [precedence]
  cases h : Precedence.ofOperator? operator.kind with
  | none => decide
  | some p =>
    have key : ∀ p ∈ Precedence.binaryLevels, p.rank < Precedence.unary.rank := by decide
    exact key p (List.mem_of_find?_eq_some h)

theorem isOperand_of_rank {e : Expr} (h : Precedence.unary.rank ≤ e.precedence.rank) :
    e.IsOperand := by
  cases e with
  | binary left operator right =>
    exact absurd (rank_precedence_binary_lt left operator right) (Nat.not_lt.2 h)
  | assign name value => simp [precedence, Precedence.rank] at h
  | _ => trivial

theorem not_isAssignment_of_rank {e : Expr} (h : Precedence.equality.rank ≤ e.precedence.rank) :
    ¬e.IsAssignment := by
  cases e with
  | assign name value => simp [precedence, Precedence.rank] at h
  | _ => exact id

end Expr

namespace Stmt

mutual

def Canonical : Stmt → Prop
  | expression expr => expr.Canonical
  | print expr => expr.Canonical
  | varDecl name initializer => name.kind = .identifier ∧ ∀ e ∈ initializer, e.Canonical
  | block body => AllCanonical body

def AllCanonical : List Stmt → Prop
  | [] => True
  | s :: ss => s.Canonical ∧ AllCanonical ss

end

mutual

/-- The largest number of blocks, groupings, prefix operators and assignments on a path. -/
def depth : Stmt → Nat
  | expression expr => expr.depth
  | print expr => expr.depth
  | varDecl _ initializer => (initializer.map Expr.depth).getD 0
  | block body => maxDepth body + 1

def maxDepth : List Stmt → Nat
  | [] => 0
  | s :: ss => max s.depth (maxDepth ss)

end

theorem allCanonical_iff {ss : List Stmt} : AllCanonical ss ↔ ∀ s ∈ ss, s.Canonical := by
  induction ss with
  | nil => simp [AllCanonical]
  | cons s ss ih => simp [AllCanonical, ih]

theorem maxDepth_le_iff {ss : List Stmt} {n : Nat} :
    maxDepth ss ≤ n ↔ ∀ s ∈ ss, s.depth ≤ n := by
  induction ss with
  | nil => simp [maxDepth]
  | cons s ss ih => rw [maxDepth, Nat.max_le, ih, List.forall_mem_cons]

end Stmt

end Lox
