import Lox.Token.Kind

/-!
# Statement rules

Which production reads a statement is decided by the kind of its first token.  There are two tables:
one for declarations, which is consulted where a declaration may stand, and one for the other
statements.  A kind without an entry starts a statement in the first table, and an expression in the
second.
-/

namespace Lox

inductive StatementRule
  | statement | print | varDecl | block
deriving DecidableEq

inductive RuleTable
  | declarations | statements
deriving DecidableEq

def Rules : Type := RuleTable → TokenKind → Option StatementRule

namespace Rules

def standard : Rules
  | .declarations, .kwVar => some .varDecl
  | .statements, .kwPrint => some .print
  | .statements, .openCurly => some .block
  | _, _ => none

/-- Enters a rule, in place of the one that the kind had in this table. -/
def register (rules : Rules) (table : RuleTable) (kind : TokenKind) (rule : StatementRule) :
    Rules :=
  fun t k => if t = table ∧ k = kind then some rule else rules t k

/-- The statement table does not have the rule that asks it for the same token again, without end.
The productions of statements are meant for rules of this kind. -/
def IsPlain (rules : Rules) : Prop :=
  ∀ kind, rules .statements kind ≠ some .statement

theorem isPlain_standard : standard.IsPlain := by
  intro kind
  cases kind <;> simp [standard]

theorem IsPlain.register {rules : Rules} (h : rules.IsPlain) {table : RuleTable} (kind : TokenKind)
    {rule : StatementRule} (hrule : table = .statements → rule ≠ .statement) :
    (rules.register table kind rule).IsPlain := by
  intro k
  unfold Rules.register
  split
  · next heq => simpa using hrule heq.1.symm
  · exact h k

/-- The kinds with an entry, in the order of their names. -/
def kinds (rules : Rules) (table : RuleTable) : List TokenKind :=
  (TokenKind.all.filter fun k => (rules table k).isSome).mergeSort fun k l => k.name ≤ l.name

end Rules

end Lox
