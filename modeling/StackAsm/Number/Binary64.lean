/-
Double-precision numbers by their 64 bits. A floating constant is only
ever read from a decimal literal, converted from an integer, negated,
stored and printed, so its bit pattern is the value: two constants are
equal when their bits are.

Rounding is exact: a ratio of naturals is compared with the grid of
representable values in whole-number arithmetic, and a tie goes to the
even neighbour.
-/

namespace StackAsm

/-- A double-precision number: sign, eleven exponent bits, fifty-two
fraction bits. -/
structure Binary64 where
  bits : UInt64
deriving DecidableEq, Repr, Inhabited

/-- Two to the power `n`. -/
def pow2 (n : Nat) : Nat := Nat.pow 2 n

/-- Ten to the power `n`. -/
def pow10 (n : Nat) : Nat := Nat.pow 10 n

namespace Binary64

/-- Bit pattern of positive infinity. -/
def infinityBits : Nat := 0x7FF0000000000000

-- ==== reading

/-- The grid step `2 ^ (step - 1074)` below which `num / den` is rounded,
as its distance from the smallest one: fifty-three significant bits, or
fewer next to zero. -/
def gridStep (num den : Nat) : Nat :=
  -- the quotient lies between 2 ^ (size - 1) and 2 ^ (size + 1)
  let size : Int := (num.log2 : Int) - (den.log2 : Int)
  let coarse : Int := size - 52 + 1074
  let fine : Int := coarse - 1
  let scaled : Int := size - 53
  let wide :=
    if scaled ≥ 0 then num ≥ den * pow2 scaled.toNat * pow2 53
    else num * pow2 (-scaled).toNat ≥ den * pow2 53
  (if wide then coarse else fine).toNat

/-- The multiple of the grid step nearest to `num / den`; a tie goes to
the even multiple. -/
def nearestMultiple (num den step : Nat) : Nat :=
  let scaledNum := num * pow2 (1074 - step)
  let scaledDen := den * pow2 (step - 1074)
  let quotient := scaledNum / scaledDen
  let remainder := scaledNum % scaledDen
  if 2 * remainder > scaledDen || (2 * remainder == scaledDen && quotient % 2 == 1)
  then quotient + 1 else quotient

/-- The double nearest to `num / den`, for a positive `den`. Values past
the largest finite one become infinity. -/
def ofRatio (num den : Nat) : Binary64 :=
  if num = 0 then ⟨0⟩
  else
    let step := gridStep num den
    let pattern := step * pow2 52 + nearestMultiple num den step
    ⟨UInt64.ofNat (min pattern infinityBits)⟩

/-- About how many decimal digits `n` has, from its binary ones. -/
def decimalEstimate (n : Nat) : Nat :=
  n.log2 * 30103 / 100000

/-- The double nearest to `digits · 10 ^ exponent`. Magnitudes far beyond
either end of the range are settled without forming the power. -/
def ofDecimal (digits : Nat) (exponent : Int) : Binary64 :=
  if digits = 0 then ⟨0⟩
  else
    let magnitude := exponent + decimalEstimate digits
    if magnitude > 400 then ⟨UInt64.ofNat infinityBits⟩
    else if magnitude < -400 then ⟨0⟩
    else if exponent ≥ 0 then ofRatio (digits * pow10 exponent.toNat) 1
    else ofRatio digits (pow10 (-exponent).toNat)

-- ==== conversions

/-- The number with its sign reversed, zero and infinity included. -/
def neg (x : Binary64) : Binary64 :=
  ⟨x.bits ^^^ 0x8000000000000000⟩

/-- The double nearest to an integer. -/
def ofInt (n : Int) : Binary64 :=
  let magnitude := ofRatio n.natAbs 1
  if n < 0 then magnitude.neg else magnitude

-- ==== reading off

def isNegative (x : Binary64) : Bool :=
  x.bits.toNat ≥ pow2 63

/-- The eleven exponent bits. -/
def exponentField (x : Binary64) : Nat :=
  x.bits.toNat / pow2 52 % pow2 11

/-- The fifty-two fraction bits. -/
def fractionField (x : Binary64) : Nat :=
  x.bits.toNat % pow2 52

def isFinite (x : Binary64) : Bool :=
  x.exponentField != 2047

def isNaN (x : Binary64) : Bool :=
  x.exponentField == 2047 && x.fractionField != 0

/-- Whole-number significand of a finite number's magnitude. -/
def significand (x : Binary64) : Nat :=
  if x.exponentField = 0 then x.fractionField else pow2 52 + x.fractionField

/-- A finite number's magnitude is its significand times
`2 ^ (scale - 1074)`. -/
def scale (x : Binary64) : Nat :=
  x.exponentField - 1

end Binary64

end StackAsm
