import Lox.Parse.Statement

/-!
# Sessions

A session reads a token stream under the caller's control: token by token, or with any production of
the grammar, and with rules of the caller's own.  It keeps the diagnostics of everything that was
read.  Levels that a production opens are closed when it ends, so they are no part of the session;
that they are closed, and that diagnostics are only added, is what `Parser.execute_eq` says of a
parser that keeps both in its state.
-/

namespace Lox

/-- The productions that can be asked for. -/
inductive Production
  | expression (p : Precedence)
  | binary (p : Precedence)
  | assignment | unary | primary | grouping
  | statement (rule : StatementRule)
  | declaration
  | program
  | line
deriving DecidableEq

/-- What a production reads.  A declaration or a line is missing after a fault. -/
inductive Reading
  | expression (expr : Expr)
  | statement (stmt : Stmt)
  | declaration (stmt : Option Stmt)
  | program (body : List Stmt)
  | line (expr : Option Expr)

/-- The production, when `room` further levels may be opened. -/
def Production.parse (rules : Rules) (room : Nat) : Production → Parse Reading
  | expression p => .expression <$> Parse.expression room p
  | binary p => .expression <$> Parse.binary room p
  | assignment => .expression <$> Parse.expression room .assignment
  | unary => .expression <$> Parse.expression room .unary
  | primary => .expression <$> Parse.expression room .primary
  | grouping => .expression <$> Parse.grouping room
  | statement rule => .statement <$> Parse.statement rules room rule
  | declaration => .declaration <$> Parse.declaration rules room
  | program => .program <$> Parse.program rules room
  | line => .line <$> Parse.line room

structure Session where
  cursor : Cursor
  rules : Rules := .standard
  diagnostics : List Diagnostic := []
  /-- The number of levels that are open around everything the session reads. -/
  depth : Nat := 0

namespace Session

def ofStream (s : TokenStream) : Session :=
  { cursor := s.cursor }

/-! ### Single operations -/

def advance (s : Session) : Session :=
  { s with cursor := s.cursor.advance }

def report (s : Session) (d : Diagnostic) : Session :=
  { s with diagnostics := s.diagnostics ++ [d] }

/-- Runs a production with the levels that are left. -/
def run {α : Type} (s : Session) (p : (room : Nat) → Parse α) : Session × Except Fault α :=
  let o := p (Parse.maxNesting - s.depth) s.cursor
  let diagnostics := s.diagnostics ++ Note.diagnostics o.notes
  ({ s with cursor := o.cursor, diagnostics }, o.result)

def read (s : Session) (p : Production) : Session × Except Fault Reading :=
  s.run (p.parse s.rules)

/-- Opens `levels` levels around a production.  The outer result is a fault if there are not so many
left. -/
def readNested (s : Session) (levels : Nat) (p : Production) :
    Session × Except Fault (Except Fault Reading) :=
  s.run (Parse.within (fun room => Parse.attempt (p.parse s.rules room)) levels)

/-! ### Commands -/

inductive Command
  | current
  | previous
  | advance
  | check (kind : TokenKind)
  | accept (kinds : List TokenKind)
  | expect (kind : TokenKind) (message : String)
  | report (d : Diagnostic)
  | synchronize
  | nested (levels : Nat) (p : Production)
  | register (table : RuleTable) (kind : TokenKind) (rule : StatementRule)
  | kinds
  | dispatch (table : RuleTable) (kind : TokenKind)
  | read (p : Production)

/-- The answer to a command.  What could not be read is told by an error of the type `ε`. -/
inductive Answer (ε : Type := Fault)
  | done
  | flag (b : Bool)
  | token (t : Token)
  | expected (result : Except ε Token)
  | read (result : Except ε Reading)
  | nested (result : Except ε (Except ε Reading))
  | registered (kinds : List TokenKind)
  | tables (declarations statements : List TokenKind)
  | noRule

/-- Executes a command and gives its answer. -/
def execute (s : Session) : Command → Session × Answer
  | .current => (s, .token s.cursor.current)
  | .previous => (s, .token s.cursor.previous)
  | .advance =>
    let t := s.advance
    (t, .token t.cursor.previous)
  | .check kind => (s, .flag (s.cursor.isAt [kind]))
  | .accept kinds => if s.cursor.isAt kinds then (s.advance, .flag true) else (s, .flag false)
  | .expect kind message =>
    let (t, result) := s.run fun _ => Parse.expect kind message
    (t, .expected result)
  | .report d => (s.report d, .done)
  | .synchronize => ({ s with cursor := s.cursor.synchronize }, .done)
  | .nested levels p =>
    let (t, result) := s.readNested levels p
    (t, .nested result)
  | .register table kind rule =>
    let rules := s.rules.register table kind rule
    ({ s with rules }, .registered (rules.kinds table))
  | .kinds => (s, .tables (s.rules.kinds .declarations) (s.rules.kinds .statements))
  | .dispatch table kind =>
    match s.rules table kind with
    | none => (s, .noRule)
    | some rule =>
      let (t, result) := s.read (.statement rule)
      (t, .read result)
  | .read p =>
    let (t, result) := s.read p
    (t, .read result)

end Session

end Lox
