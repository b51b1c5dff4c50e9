/-
The fewest decimal digits that read back. Every real in an interval
around a double rounds to that double; the interval's ends belong to it
when the significand is even. For one, two, up to seventeen digits the
value's two neighbours on that decimal grid are tested; the first grid
with a neighbour inside the interval gives the digits, of two neighbours
the nearer one, and of two equally near the upper one.
-/
import StackAsm.Number.Binary64

namespace StackAsm

/-- A positive decimal: `digits · 10 ^ exponent`. -/
structure Decimal where
  digits : Nat
  exponent : Int
deriving DecidableEq, Repr

namespace Decimal

/-- The same value without trailing zeros in the digits; `fuel` bounds
how many are dropped. -/
def stripZeros : Nat → Decimal → Decimal
  | 0, d => d
  | fuel + 1, d =>
    if d.digits ≠ 0 ∧ d.digits % 10 = 0 then
      stripZeros fuel ⟨d.digits / 10, d.exponent + 1⟩
    else d

/-- How many decimal digits `n` has. -/
def width (n : Nat) : Nat :=
  (Nat.toDigits 10 n).length

/-- How many digits stand before the decimal point when the value is
written out; zero or negative for a value below one tenth. -/
def pointPosition (d : Decimal) : Int :=
  width d.digits + d.exponent

end Decimal

namespace Binary64

/-- Four times the value, and four times the ends of its rounding
interval, in units of a quarter of the value's grid step. -/
structure Interval where
  low : Nat
  value : Nat
  high : Nat
  closed : Bool
deriving Repr

/-- The rounding interval of a finite nonzero number. Below a power of
two the neighbours stand twice as close. -/
def interval (x : Binary64) : Interval :=
  let m := x.significand
  let tight := x.fractionField = 0 ∧ x.exponentField > 1
  { low := if tight then 4 * m - 1 else 4 * m - 2
    value := 4 * m
    high := 4 * m + 2
    closed := m % 2 == 0 }

/-- Numerator and denominator of `n · 2 ^ power`. -/
def ratioPow2 (n : Nat) (power : Int) : Nat × Nat :=
  (n * pow2 power.toNat, pow2 (-power).toNat)

/-- Whether `a / b ≥ 10 ^ power`. -/
def reachesPow10 (a b : Nat) (power : Int) : Bool :=
  a * pow10 (-power).toNat ≥ b * pow10 power.toNat

/-- Largest power of ten not above `a / b`, searched upward from
`guess`. -/
def floorLog10 (a b : Nat) : Nat → Int → Int
  | 0, guess => guess
  | fuel + 1, guess =>
    if reachesPow10 a b (guess + 1) then floorLog10 a b fuel (guess + 1) else guess

/-- The decimal of `width` digits closest to the value among its two
neighbours on that grid, if one of them lies in the interval. -/
def candidate? (range : Interval) (power top : Int) (width : Nat) : Option Decimal :=
  let grid : Int := top - (width : Int) + 1
  -- compare n · 10 ^ grid with v · 2 ^ power on one whole-number scale
  let decimalUnit := pow10 grid.toNat * pow2 (-power).toNat
  let binaryUnit := pow2 power.toNat * pow10 (-grid).toNat
  let value := range.value * binaryUnit
  let low := range.low * binaryUnit
  let high := range.high * binaryUnit
  let inside (n : Nat) : Bool :=
    let point := n * decimalUnit
    if range.closed then low ≤ point && point ≤ high else low < point && point < high
  let below := value / decimalUnit
  let above := below + 1
  let gapBelow := value - below * decimalUnit
  let gapAbove := above * decimalUnit - value
  match inside below, inside above with
  | true, true => some ⟨if gapAbove ≤ gapBelow then above else below, grid⟩
  | true, false => some ⟨below, grid⟩
  | false, true => some ⟨above, grid⟩
  | false, false => none

/-- Try grids of increasing width; seventeen digits always suffice. -/
def searchWidths (range : Interval) (power top : Int) : Nat → Nat → Decimal
  | 0, width => (candidate? range power top width).getD ⟨0, 0⟩
  | fuel + 1, width =>
    match candidate? range power top width with
    | some found => found
    | none => searchWidths range power top fuel (width + 1)

/-- The shortest decimal that reads back as the magnitude of a finite
nonzero number. -/
def shortest (x : Binary64) : Decimal :=
  let range := x.interval
  let power : Int := (x.scale : Int) - 1074 - 2
  let (num, den) := ratioPow2 range.value power
  let size : Int := (num.log2 : Int) - (den.log2 : Int)
  let top := floorLog10 num den 5 (size * 30103 / 100000 - 2)
  Decimal.stripZeros 20 (searchWidths range power top 16 1)

end Binary64

end StackAsm
