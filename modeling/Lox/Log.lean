import Lox.Diagnostic

/-!
# Log lines

What the scanner and the parser tell about their work, line by line.
-/

namespace Lox

inductive LogLevel
  | trace | debug | error
deriving DecidableEq

structure LogLine where
  level : LogLevel
  text : String
deriving DecidableEq

/-- The line that is logged when a diagnostic is handed to a report. -/
def Diagnostic.logLine (d : Diagnostic) : LogLine :=
  ⟨.error, d.headline⟩

end Lox
