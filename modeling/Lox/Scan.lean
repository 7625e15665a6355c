import Lox.Log
import Lox.Segment
import Lox.Token.Stream

/-!
# Scanning

A scan gives the tokens of a source, closed by an end-of-input token, and the diagnostics for what
is not part of the language.  It never fails: it goes on behind each such segment.
-/

namespace Lox

structure Scan where
  tokens : TokenStream
  diagnostics : List Diagnostic

namespace Scan

/-- The scan of a text that begins at the place `p`. -/
def ofText (p : Place) (cs : List Char) : Scan :=
  let placed := Segment.placed p (Segment.segments cs)
  { tokens :=
      ⟨placed.filterMap fun (p, s) => s.token? p.position, ⟨(p.after cs).position, .eof, "", none⟩,
        rfl⟩
    diagnostics := placed.filterMap fun (p, s) => s.diagnostic? p.position }

/-- What is logged: every token, a summary, and the diagnostics. -/
def log (s : Scan) : List LogLine :=
  s.tokens.toList.map (fun t => ⟨.trace, "scanned " ++ t.summary⟩) ++
    [⟨.debug, "scanned " ++ toString s.tokens.size ++ " tokens over " ++
      toString s.tokens.last.line ++ " lines with " ++ toString s.diagnostics.length ++
      " errors"⟩] ++
    s.diagnostics.map (·.logLine)

end Scan

/-- The scan of a whole source. -/
def scan (source : String) : Scan :=
  .ofText .start source.toList

end Lox
