import Bytescript.Double

/-!
# The shortest decimal of a double

Among the decimals that read back as a given double, `Double.decimal` takes those with the fewest
digits, of these the nearest to the double, and of two equally near ones the larger. All
comparisons are exact: magnitudes are natural numbers that count quarter units, so that the ends of
the interval of reals that round to the double are whole.

`Double.text` and `Double.plainText` lay the digits out.
-/

namespace Bytescript

/-- A positive decimal `0.digits * 10 ^ point`; the last digit is not zero. -/
structure Decimal where
  digits : List Char
  point : Int
deriving DecidableEq, Repr

namespace Decimal

/-- Digits without an exponent, the whole part first; `fraction` is what stands for an empty
fraction. -/
def positional (d : Decimal) (fraction : String) : String :=
  let zeros (n : Int) := List.replicate n.toNat '0'
  if d.point ≤ 0 then
    "0." ++ String.ofList (zeros (-d.point) ++ d.digits)
  else if d.digits.length ≤ d.point then
    String.ofList (d.digits ++ zeros (d.point - d.digits.length)) ++ fraction
  else
    String.ofList (d.digits.take d.point.toNat) ++ "." ++
      String.ofList (d.digits.drop d.point.toNat)

/-- One digit before the point and the exponent after an `e`. -/
def scientific (d : Decimal) : String :=
  let tail := d.digits.drop 1
  let mantissa := String.ofList (d.digits.take 1) ++
    (if tail.isEmpty then "" else "." ++ String.ofList tail)
  s!"{mantissa}e{d.point - 1}"

end Decimal

namespace Double

variable (x : Double)

/-! ## Digits -/

/-- Quarter units per one: `2 ^ 1074` units make one. -/
def quartersPerOne : Nat := 1 <<< 1076

/-- The reals that round to a double, as bounds on their count of quarter units. -/
structure Interval where
  low : Nat
  high : Nat
  closed : Bool

def Interval.contains (i : Interval) (scale n : Nat) : Bool :=
  if i.closed then i.low * scale ≤ n && n ≤ i.high * scale
  else i.low * scale < n && n < i.high * scale

/-- Half a step to each side, a quarter step downward where the spacing of doubles changes. An even
significand also receives the two ends. -/
def interval : Interval where
  low := (4 * x.significand - (if x.fractionBits = 0 ∧ 1 < x.exponentBits then 1 else 2)) <<<
    x.scale
  high := (4 * x.significand + 2) <<< x.scale
  closed := x.significand % 2 = 0

/-- The power of ten just above a magnitude: `10 ^ (point - 1) ≤ magnitude < 10 ^ point`. -/
def pointOf (quarters : Nat) : Int :=
  (Nat.toDigits 10 (quarters * Nat.pow 10 400 / quartersPerOne)).length - 400

/-- A multiple of `10 ^ place` inside the interval, the nearest to the magnitude, if one of the
magnitude's two neighbours on that grid lies inside. -/
def onGrid? (i : Interval) (quarters : Nat) (place : Int) : Option Nat :=
  let scale := Nat.pow 10 (-place).toNat
  let step := quartersPerOne * Nat.pow 10 place.toNat
  let exact := quarters * scale
  let below := exact / step
  match i.contains scale (below * step), i.contains scale ((below + 1) * step) with
  | true, true =>
    if exact - below * step < (below + 1) * step - exact then some below else some (below + 1)
  | true, false => some below
  | false, true => some (below + 1)
  | false, false => none

/-- The first grid that serves, from the coarsest on; seventeen digits always suffice. -/
def searchGrids (i : Interval) (quarters : Nat) (point : Int) : (fuel count : Nat) → Nat × Int
  | 0, count => (quarters * Nat.pow 10 (count - point).toNat / quartersPerOne, point - count)
  | fuel + 1, count =>
    match onGrid? i quarters (point - count) with
    | some n => (n, point - count)
    | none => searchGrids i quarters point fuel (count + 1)

def decimal : Decimal :=
  let quarters := 4 * x.units
  let (n, place) := searchGrids x.interval quarters (pointOf quarters) 17 1
  let digits := Nat.toDigits 10 n
  { digits := (digits.reverse.dropWhile (· = '0')).reverse, point := digits.length + place }

/-! ## Layout -/

/-- Shared by both layouts: the texts of what is not a positive number, and the sign. -/
def render (zero : String) (positive : Decimal → String) : String :=
  if x.isNaN then "NaN"
  else
    let magnitude :=
      if x.isInfinite then "inf" else if x.isZero then zero else positive x.decimal
    if x.isNegative then "-" ++ magnitude else magnitude

/-- How values and constants are shown: a whole number keeps a `.0`, and an exponent is written
from `10 ^ 16` on and below `10 ^ (-4)`. -/
def text : String :=
  x.render "0.0" fun d =>
    if 16 < d.point ∨ d.point < -3 then d.scientific else d.positional ".0"

/-- How numbers are printed: never an exponent, and no fraction for a whole number. -/
def plainText : String :=
  x.render "0" fun d => d.positional ""

end Double

end Bytescript
