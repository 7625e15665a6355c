import Lox.Decimal

/-!
# The shortest decimal fraction in an interval

Every positive binary fraction is the nearest one to an interval of real numbers.  Among the decimal
fractions in that interval, the shortest are the points of the coarsest decimal grid that meets the
interval, and `RoundingInterval.shortest` is the one of them nearest to the fraction itself.  Only
the two neighbours of the fraction on a grid have to be looked at: if any point of the grid lies in
the interval, so does one of these.
-/

namespace Lox

/-- The real numbers that round to the binary fraction `centre`.  The three numbers count units of
`1 / 2 ^ unitExponent`, and the ends belong to the interval if it is `closed`. -/
structure RoundingInterval where
  lower : Nat
  centre : Nat
  upper : Nat
  closed : Bool
deriving DecidableEq

namespace RoundingInterval

/-- A quarter of the distance of the smallest binary fractions is `1 / 2 ^ 1076`. -/
def unitExponent : Nat := 1076

/-- The interval of the fraction `mantissa * 2 ^ scale / 2 ^ 1074`.  It reaches half way to the
neighbours; the lower neighbour is only half as far away if `narrow`.  A number half way rounds to
the even mantissa. -/
def ofBinary (mantissa scale : Nat) (narrow : Bool) : RoundingInterval where
  lower := (4 * mantissa - if narrow then 1 else 2) <<< scale
  centre := (4 * mantissa) <<< scale
  upper := (4 * mantissa + 2) <<< scale
  closed := mantissa % 2 = 0

/-- A decimal grid: the multiples of `10 ^ zeros / 10 ^ places`. -/
structure Grid where
  zeros : Nat
  places : Nat
deriving DecidableEq

namespace Grid

/-- The distance of the grid's points, in units divided by `10 ^ places`. -/
def step (g : Grid) : Nat :=
  powTen g.zeros <<< unitExponent

/-- The point number `n` of the grid. -/
def point (g : Grid) (n : Nat) : Decimal :=
  ⟨n * powTen g.zeros, g.places⟩

end Grid

/-- Whether the point number `n` of the grid `g` lies in the interval. -/
def contains (i : RoundingInterval) (g : Grid) (n : Nat) : Bool :=
  let x := n * g.step
  let lower := i.lower * powTen g.places
  let upper := i.upper * powTen g.places
  if i.closed then lower ≤ x && x ≤ upper else lower < x && x < upper

/-- The point of the grid nearest to the centre, if the interval contains one; half way, the upper
one. -/
def nearest? (i : RoundingInterval) (g : Grid) : Option Decimal :=
  let x := i.centre * powTen g.places
  let below := x / g.step
  let above := below + 1
  match i.contains g below, i.contains g above with
  | true, true => some (g.point (if x - below * g.step < above * g.step - x then below else above))
  | true, false => some (g.point below)
  | false, true => some (g.point above)
  | false, false => none

/-- The grids from coarse to fine.  A grid with a larger step has no positive point up to `upper`,
and every interval contains a point of the last grid, on which its centre lies. -/
def grids (i : RoundingInterval) : List Grid :=
  let whole := (Nat.toDigits 10 (i.upper >>> unitExponent)).length
  (List.range whole).reverse.map (fun k => ⟨k + 1, 0⟩) ++
    (List.range (unitExponent + 1)).map (fun k => ⟨0, k⟩)

def shortest (i : RoundingInterval) : Decimal :=
  (i.grids.findSome? i.nearest?).getD ⟨0, 0⟩

end RoundingInterval

end Lox
