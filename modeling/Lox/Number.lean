import Lox.Decimal.Shortest

/-!
# Numbers

Numbers are binary fractions of 64 bits: a sign, eleven bits of exponent and 52 bits of fraction.  A
numeral denotes the number nearest to it, and a number is written as the shortest decimal fraction
that reads back as it, without an exponent however large or small it is.
-/

namespace Lox

namespace Number

/-- The number nearest to a decimal fraction. -/
def ofDecimal (d : Decimal) : Float :=
  Float.ofScientific d.units true d.places

def isNegative (x : Float) : Bool :=
  x.toBits.toNat >>> 63 = 1

def exponentField (x : Float) : Nat :=
  (x.toBits.toNat >>> 52) % 2048

def fractionField (x : Float) : Nat :=
  x.toBits.toNat % (1 <<< 52)

/-- The rounding interval of the absolute value of a number that is neither zero nor infinite. -/
def interval (x : Float) : RoundingInterval :=
  let e := exponentField x
  let f := fractionField x
  if e = 0 then .ofBinary f 0 false
  else .ofBinary ((1 <<< 52) + f) (e - 1) (f = 0 && 1 < e)

def unsignedText (x : Float) : String :=
  if exponentField x = 0 && fractionField x = 0 then "0"
  else if exponentField x = 2047 then "inf"
  else (interval x).shortest.text

def text (x : Float) : String :=
  if exponentField x = 2047 && fractionField x ≠ 0 then "NaN"
  else if isNegative x then "-" ++ unsignedText x
  else unsignedText x

end Number

end Lox
