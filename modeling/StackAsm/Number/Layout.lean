/-
Decimal text of doubles. Two places show floating numbers: constants in
listings, which always keep a point and go over to powers of ten for
very large and very small values, and arguments quoted in diagnostics,
which are written out in full and drop a zero fraction.
-/
import StackAsm.Number.Shortest

namespace StackAsm

/-- The decisions of one floating text. -/
structure FloatStyle where
  /-- A whole value still shows one fractional digit. -/
  keepFraction : Bool
  /-- Values of at least `10 ^ 16` or below `10 ^ -4` use an exponent. -/
  exponents : Bool

namespace FloatStyle

/-- Constants: `1.0`, `-0.0`, `1e16`, `1.5e-5`. -/
def constant : FloatStyle := ⟨true, true⟩

/-- Arguments: `1`, `-0`, and every digit written out. -/
def plain : FloatStyle := ⟨false, false⟩

/-- Digits with the point after `position` of them, padded with zeros on
either side as needed. -/
def positional (style : FloatStyle) (digits : List Char) (position : Int) : List Char :=
  let whole :=
    if position ≤ 0 then ['0']
    else (digits ++ List.replicate (position.toNat - digits.length) '0').take position.toNat
  let fraction :=
    if position ≤ 0 then List.replicate (-position).toNat '0' ++ digits
    else digits.drop position.toNat
  if fraction.isEmpty then
    if style.keepFraction then whole ++ ['.', '0'] else whole
  else whole ++ '.' :: fraction

/-- Digits with the point after the first, then the power of ten. -/
def scientific (digits : List Char) (position : Int) : List Char :=
  let exponent := (toString (position - 1)).toList
  match digits with
  | [] => []
  | [d] => d :: 'e' :: exponent
  | d :: rest => d :: '.' :: rest ++ 'e' :: exponent

/-- Text of a finite number's magnitude. -/
def magnitude (style : FloatStyle) (x : Binary64) : List Char :=
  if x.significand = 0 then style.positional ['0'] 1
  else
    let short := x.shortest
    let digits := Nat.toDigits 10 short.digits
    let position := short.pointPosition
    -- at least 10 ^ 16 has more than sixteen whole digits; below 10 ^ -4
    -- starts with more than three zeros after the point
    if style.exponents && (position > 16 || position < -3) then
      scientific digits position
    else style.positional digits position

def render (style : FloatStyle) (x : Binary64) : String :=
  let sign := if x.isNegative then ['-'] else []
  String.ofList <|
    if x.isNaN then "NaN".toList
    else if x.isFinite then sign ++ style.magnitude x
    else sign ++ "inf".toList

end FloatStyle

end StackAsm
