/-!
# Lines of a text

Lines end at a newline; a carriage return in front of it does not belong to the line.  Lines are
counted from 1.
-/

namespace Lox

namespace Text

/-- The line without a carriage return at its end. -/
def chomp (cs : List Char) : List Char :=
  if cs.getLast? = some '\r' then cs.dropLast else cs

def line? (cs : List Char) (n : Nat) : Option (List Char) :=
  if n = 0 then none else (cs.splitOn '\n')[n - 1]?.map chomp

end Text

/-- The text of line `n` of a source. -/
def sourceLine? (source : String) (n : UInt32) : Option String :=
  (Text.line? source.toList n.toNat).map String.ofList

end Lox
