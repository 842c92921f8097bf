import TransitTransfers.Binary64
import TransitTransfers.Decimal.Digits

/-!
# The shortest decimal of a binary value

Among the decimals that read back as a given binary value, the shortest ones
have the fewest digits, and of those the one nearest to the value is taken.
The search tries the powers of ten from the coarsest on.  On each of these
grids only the two neighbours of the value can be the answer: if any point of
the grid reads back, one of the two does.

A decimal reads back exactly if it lies between the midpoints to the two
neighbouring binary values.  The midpoints themselves count if the mantissa is
even.  All comparisons are between natural numbers, in quarters of the last
binary place.
-/

namespace TransitTransfers

/-- A positive decimal number: its digits, and the power of ten of the first
digit.  So digits `1 5` with leading power `2` are `150`. -/
structure Decimal where
  /-- The digits, the most significant one first. -/
  digits : List Char
  /-- The power of ten that the first digit counts. -/
  leading : Int
deriving DecidableEq, Repr

/-- Where a number goes that lies exactly between two candidates. -/
inductive Tie where
  | even
  | up
deriving DecidableEq, Repr

namespace Decimal

/-- The decimal `n * 10 ^ power`, without zeros at its end. -/
def ofScaled (n : Nat) (power : Int) : Decimal :=
  let digits := Digits.ofNat n
  let kept := (digits.reverse.dropWhile (· = '0')).reverse
  ⟨if kept.isEmpty then ['0'] else kept, power + digits.length - 1⟩

/-- The decimals that read back as `mantissa * 2 ^ exponent`, as far as one
grid is concerned: multiples of `step` units, where `unit` units make a quarter
of the last binary place. -/
structure Grid where
  /-- How many units a quarter of the last binary place has. -/
  unit : Nat
  /-- How many units lie between two points of the grid. -/
  step : Nat
deriving DecidableEq, Repr

/-- The grid of the multiples of `10 ^ power`, for values that are multiples
of `2 ^ exponent`. -/
def Grid.at (exponent power : Int) : Grid :=
  let quarter := exponent - 2
  ⟨Nat.pow 2 quarter.toNat * Nat.pow 10 (-power).toNat,
    Nat.pow 2 (-quarter).toNat * Nat.pow 10 power.toNat⟩

/-- Whether the gap below `mantissa * 2 ^ exponent` is half as wide as the one
above.  That is so at the powers of two, except the least ones. -/
def narrowBelow (mantissa : Nat) (exponent : Int) : Bool :=
  mantissa = Nat.pow 2 52 ∧ exponent ≠ -1074

/-- Whether the point `n` of the grid lies within the midpoints around
`mantissa * 2 ^ exponent`. -/
def Grid.readsBack (grid : Grid) (mantissa : Nat) (exponent : Int) (n : Nat) : Bool :=
  let low := (4 * mantissa - if narrowBelow mantissa exponent then 1 else 2) * grid.unit
  let high := (4 * mantissa + 2) * grid.unit
  let point := n * grid.step
  if mantissa % 2 = 0 then low ≤ point && point ≤ high
  else low < point && point < high

/-- The point of the grid that is nearest to `mantissa * 2 ^ exponent` among
those that read back. -/
def Grid.nearest? (grid : Grid) (tie : Tie) (mantissa : Nat) (exponent : Int) :
    Option Nat :=
  let value := 4 * mantissa * grid.unit
  let below := value / grid.step
  let rest := value % grid.step
  let takeAbove :=
    match compare (2 * rest) grid.step, tie with
    | .lt, _ => false
    | .gt, _ => true
    | .eq, .up => true
    | .eq, .even => below % 2 = 1
  let first := if takeAbove then below + 1 else below
  let second := if takeAbove then below else below + 1
  if grid.readsBack mantissa exponent first then some first
  else if grid.readsBack mantissa exponent second then some second
  else none

/-- A power of ten that is above `mantissa * 2 ^ exponent`, by two places at
most. -/
def coarsest (mantissa : Nat) (exponent : Int) : Int :=
  (mantissa.log2 + 1 + exponent) * 30103 / 100000 + 1

/-- The grids to try, from the coarsest on. -/
def powers (mantissa : Nat) (exponent : Int) : List Int :=
  (List.range 20).map fun (below : Nat) =>
    coarsest mantissa exponent - below

/-- All digits of `mantissa * 2 ^ exponent`. -/
def exact (mantissa : Nat) (exponent : Int) : Decimal :=
  ofScaled (mantissa * Nat.pow 2 exponent.toNat * Nat.pow 5 (-exponent).toNat) (min exponent 0)

/-- The shortest decimal that reads back as `mantissa * 2 ^ exponent`; the
nearest one of these. -/
def shortest (tie : Tie) (mantissa : Nat) (exponent : Int) : Decimal :=
  let found := (powers mantissa exponent).findSome? fun power =>
    ((Grid.at exponent power).nearest? tie mantissa exponent).map (ofScaled · power)
  found.getD (exact mantissa exponent)

end Decimal

end TransitTransfers
