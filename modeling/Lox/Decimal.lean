/-!
# Decimal fractions

A decimal fraction is a whole number of units at some decimal place.  It is written out in full: all
digits before the point and, if there are places, exactly that many digits behind it.
-/

namespace Lox

/-- The number `10 ^ k`. -/
def powTen (k : Nat) : Nat :=
  Nat.pow 10 k

/-- The number `units / 10 ^ places`. -/
structure Decimal where
  units : Nat
  places : Nat
deriving DecidableEq

namespace Decimal

/-- The digits of `n`, with zeros in front up to `width` digits. -/
def paddedDigits (width n : Nat) : List Char :=
  List.replicate (width - (Nat.toDigits 10 n).length) '0' ++ Nat.toDigits 10 n

def digits (d : Decimal) : List Char :=
  if d.places = 0 then Nat.toDigits 10 d.units
  else
    Nat.toDigits 10 (d.units / powTen d.places) ++
      '.' :: paddedDigits d.places (d.units % powTen d.places)

def text (d : Decimal) : String :=
  String.ofList d.digits

/-- The number written by a row of digits. -/
def ofDigits (cs : List Char) : Nat :=
  cs.foldl (fun n c => 10 * n + (c.toNat - '0'.toNat)) 0

/-- The fraction written by digits with an optional point. -/
def ofNumeral (cs : List Char) : Decimal :=
  let whole := cs.takeWhile Char.isDigit
  let fraction := (cs.dropWhile Char.isDigit).drop 1
  ⟨ofDigits (whole ++ fraction), fraction.length⟩

end Decimal

end Lox
