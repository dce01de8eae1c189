import ChainScript.Decimal.Binary
import ChainScript.Decimal.Digits

/-
The fewest decimal digits that read back to the same double.

A double stands for an interval of reals, namely those that are nearer to it
than to its neighbours.  A decimal reads back to the double exactly when it
lies in that interval, the ends included for an even mantissa.  The digits
are found by trying grids of one digit, two digits and so on, and testing on
each the two points around the value.
-/

namespace ChainScript

/-- The positive decimal `digits * 10 ^ exponent`. -/
structure Scientific where
  digits : Nat
  exponent : Int
deriving Repr, DecidableEq

/-- The power of ten of the leading digit. -/
def Scientific.magnitude (number : Scientific) : Int :=
  number.exponent + digitCount number.digits - 1

/-- Drop zeros from the end of the digits, at most `count` of them. -/
def Scientific.dropZeros : Nat → Scientific → Scientific
  | 0, number => number
  | count + 1, number =>
      if number.digits % 10 = 0 ∧ number.digits ≠ 0 then
        dropZeros count ⟨number.digits / 10, number.exponent + 1⟩
      else number

/-- The interval of a positive double in quarters of its last place: the value
is `4 * mantissa` and the ends are half a gap away on either side.  The gap
below a power of two is half as wide. -/
structure RoundingInterval where
  low : Nat
  value : Nat
  high : Nat
  closed : Bool
  exponent : Int
deriving Repr

def FloatParts.roundingInterval (parts : FloatParts) : RoundingInterval where
  low :=
    if parts.mantissa = leadingBit ∧ parts.exponent ≠ minExponent then
      4 * parts.mantissa - 1
    else 4 * parts.mantissa - 2
  value := 4 * parts.mantissa
  high := 4 * parts.mantissa + 2
  closed := parts.mantissa % 2 == 0
  exponent := parts.exponent - 2

/-- Factors that bring quarters of a last place and multiples of
`10 ^ exponent` to one unit. -/
structure CommonUnit where
  quarter : Nat
  grid : Nat

def RoundingInterval.commonUnit (interval : RoundingInterval) (exponent : Int) :
    CommonUnit where
  quarter :=
    Nat.pow 2 interval.exponent.toNat * Nat.pow 10 (-exponent).toNat
  grid := Nat.pow 2 (-interval.exponent).toNat * Nat.pow 10 exponent.toNat

/-- The decimal lies in the interval. -/
def RoundingInterval.holds (interval : RoundingInterval) (number : Scientific) :
    Bool :=
  let unit := interval.commonUnit number.exponent
  let point := number.digits * unit.grid
  let low := interval.low * unit.quarter
  let high := interval.high * unit.quarter
  if interval.closed then low ≤ point && point ≤ high
  else low < point && point < high

/-- The smallest power of ten that lifts the fraction `num / den` to one or
more, searched from `power` on. -/
def liftingPower (num den : Nat) : Nat → Nat → Nat
  | 0, power => power
  | fuel + 1, power =>
      if den ≤ num * Nat.pow 10 power then power
      else liftingPower num den fuel (power + 1)

/-- The power of ten of the leading digit of a positive double. -/
def FloatParts.magnitude (parts : FloatParts) : Int :=
  let num := parts.mantissa * Nat.pow 2 parts.exponent.toNat
  let den := Nat.pow 2 (-parts.exponent).toNat
  if den ≤ num then (digitCount (num / den) : Int) - 1
  else - (liftingPower num den 400 1 : Int)

/-- The two points around the value on the grid of multiples of
`10 ^ exponent`, and the one to take: the only one in the interval, or the
nearer, or in the middle the upper one. -/
def RoundingInterval.onGrid? (interval : RoundingInterval) (exponent : Int) :
    Option Scientific :=
  let unit := interval.commonUnit exponent
  let point := interval.value * unit.quarter
  let below : Scientific := ⟨point / unit.grid, exponent⟩
  let above : Scientific := ⟨point / unit.grid + 1, exponent⟩
  let fromBelow := point - below.digits * unit.grid
  let fromAbove := above.digits * unit.grid - point
  match interval.holds below, interval.holds above with
  | true, true => some (if fromBelow < fromAbove then below else above)
  | true, false => some below
  | false, true => some above
  | false, false => none

/-- Try grids of `count` digits and more until one has a point in the
interval. -/
def RoundingInterval.search (interval : RoundingInterval) (magnitude : Int) :
    Nat → Nat → Option Scientific
  | 0, _ => none
  | tries + 1, count =>
      match interval.onGrid? (magnitude + 1 - count) with
      | some number => some number
      | none => interval.search magnitude tries (count + 1)

/-- The shortest decimal of a positive double, without zeros at its end. -/
def FloatParts.shortest (parts : FloatParts) : Scientific :=
  match parts.roundingInterval.search parts.magnitude 17 1 with
  | some number => number.dropZeros (digitCount number.digits)
  | none => ⟨parts.mantissa, 0⟩

example : (FloatParts.mk false 0x1999999999999a (-56)).shortest = ⟨1, -1⟩ := by
  decide +kernel

example : (FloatParts.mk false 1 (-1074)).shortest = ⟨5, -324⟩ := by
  decide +kernel

end ChainScript
