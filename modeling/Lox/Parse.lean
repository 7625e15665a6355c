import Lox.Parse.Statement

/-!
# Parsing token streams

Parsing a stream as a program gives its statements and the notes on the way, and it always ends.
Parsing it as a single expression, such as a line typed at a prompt, leaves the tokens behind the
expression alone.
-/

namespace Lox

/-- The program of a stream of `size` tokens, with the notes on how it was read. -/
structure Parsing where
  size : Nat
  program : List Stmt
  notes : List Note

namespace Parsing

def diagnostics (p : Parsing) : List Diagnostic :=
  Note.diagnostics p.notes

/-- What is logged: the start, every recovery, a summary, and the diagnostics. -/
def log (p : Parsing) : List LogLine :=
  [⟨.debug, "parsing " ++ toString p.size ++ " tokens"⟩] ++ p.notes.filterMap Note.logLine? ++
    [⟨.debug, "parsed " ++ toString p.program.length ++ " statements with " ++
      toString p.diagnostics.length ++ " errors"⟩] ++
    p.diagnostics.map (·.logLine)

end Parsing

/-- The value of a production that notes its faults. -/
def Outcome.value {α : Type} (o : Outcome α) (missing : α) : α :=
  match o.result with
  | .ok a => a
  | .error _ => missing

/-- The stream as a program. -/
def TokenStream.parse (s : TokenStream) : Parsing :=
  let o := Parse.program .standard Parse.maxNesting s.cursor
  ⟨s.size, o.value [], o.notes⟩

/-- The stream as a single expression, with the diagnostics. -/
def TokenStream.parseExpression (s : TokenStream) : Option Expr × List Diagnostic :=
  let o := Parse.line Parse.maxNesting s.cursor
  (o.value none, Note.diagnostics o.notes)

end Lox
