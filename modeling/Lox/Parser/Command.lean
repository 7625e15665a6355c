import Lox.Parser.Grammar
import Lox.Session

/-!
# Commands to a parser

A parser takes the commands of a session one by one.  The rule `statement` in the statement table
asks that table for the rule of the same token again, so a parser with such an entry may never
answer; the commands that do not register one are called plain.
-/

namespace Lox

/-- The command does not make the statement table ask itself again. -/
def Session.Command.isPlain : Session.Command → Bool
  | .register .statements _ .statement => false
  | _ => true

namespace Parser

open Session (Command Answer)

def production : Production → Run Reading
  | .expression p => .expression <$> expression p
  | .binary p => .expression <$> binary p
  | .assignment => .expression <$> assignment
  | .unary => .expression <$> unary
  | .primary => .expression <$> primary
  | .grouping => .expression <$> grouping
  | .statement rule => .statement <$> ruled rule
  | .declaration => .declaration <$> declaration
  | .program => .program <$> program
  | .line => .line <$> line

/-- Gives the answer to a command. -/
def command : Command → Run (Answer Diagnostic)
  | .current => .token <$> current
  | .previous => .token <$> previous
  | .advance => .token <$> advance
  | .check kind => .flag <$> check kind
  | .accept kinds => .flag <$> matchKinds kinds
  | .expect kind message => .expected <$> attempt (expect kind message)
  | .report d => do
    report d
    return .done
  | .synchronize => do
    synchronize
    return .done
  | .nested levels p => .nested <$> attempt (within levels (attempt (production p)))
  | .register table kind rule => do
    modify fun s => { s with rules := s.rules.register table kind rule }
    return .registered ((← get).rules.kinds table)
  | .kinds => do
    let rules := (← get).rules
    return .tables (rules.kinds .declarations) (rules.kinds .statements)
  | .dispatch table kind => do
    match (← get).rules table kind with
    | none => return .noRule
    | some rule => .read <$> attempt (production (.statement rule))
  | .read p => .read <$> attempt (production p)

/-- Executes a command and gives its answer, if it comes to one. -/
def execute (s : Parser) (c : Command) : Option (Parser × Answer Diagnostic) :=
  match (command c).exec s with
  | some (.ok answer, t) => some (t, answer)
  | some (.error _, _) | none => none

/-- The parser after a row of commands. -/
def after (s : Parser) (commands : List Command) : Option Parser :=
  commands.foldlM (fun s c => (s.execute c).map Prod.fst) s

end Parser

end Lox
