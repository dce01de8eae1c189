import ChainScript.Decimal.Shortest

/-
The text of floats: how one is written, and how a literal is read.
-/

namespace ChainScript

/-- The choices of a float notation that the digits leave open. -/
structure FloatNotation where
  /-- Leading digits from this power of ten on are written positionally. -/
  positionalFrom : Int
  /-- The first power of ten that is written with an exponent again. -/
  positionalTo : Int
  /-- Whole numbers are written with this fraction. -/
  wholeFraction : String
  exponentMark : String
  infinity : String
  undefined : String

/-- Scripts write floats positionally from `0.0001` up to sixteen digits before
the point, keep a fraction on whole numbers, and put neither a plus sign nor a
fraction of zero into an exponent form. -/
def FloatNotation.script : FloatNotation where
  positionalFrom := -4
  positionalTo := 16
  wholeFraction := ".0"
  exponentMark := "e"
  infinity := "inf"
  undefined := "NaN"

/-- Digits with the point after the first `whole` of them. -/
def pointAfter (whole : Nat) (digits : List Char) : List Char :=
  digits.take whole ++ '.' :: digits.drop whole

/-- A positive decimal in positional notation. -/
def FloatNotation.positional (form : FloatNotation) (number : Scientific) :
    String :=
  let digits := Nat.toDigits 10 number.digits
  if 0 ≤ number.exponent then
    String.ofList (digits ++ List.replicate number.exponent.toNat '0') ++
      form.wholeFraction
  else if 0 ≤ number.magnitude then
    String.ofList (pointAfter (number.magnitude.toNat + 1) digits)
  else
    String.ofList ('0' :: '.' ::
      (List.replicate (-number.magnitude - 1).toNat '0' ++ digits))

/-- A positive decimal with one digit before the point and an exponent. -/
def FloatNotation.scientific (form : FloatNotation) (number : Scientific) :
    String :=
  let digits := Nat.toDigits 10 number.digits
  let lead := if digits.length ≤ 1 then digits else pointAfter 1 digits
  String.ofList lead ++ form.exponentMark ++ toString number.magnitude

def FloatNotation.positive (form : FloatNotation) (number : Scientific) :
    String :=
  if form.positionalFrom ≤ number.magnitude ∧
      number.magnitude < form.positionalTo then
    form.positional number
  else form.scientific number

/-- The text of a double in a notation. -/
def FloatNotation.write (form : FloatNotation) (x : Float) : String :=
  match FloatParts.ofFloat? x with
  | some parts =>
      let sign := if parts.negative then "-" else ""
      if parts.mantissa = 0 then sign ++ "0" ++ form.wholeFraction
      else sign ++ form.positive parts.shortest
  | none =>
      if x.isNaN then form.undefined
      else if x < 0.0 then "-" ++ form.infinity
      else form.infinity

/-- The text of a float in scripts. -/
def floatText (x : Float) : String :=
  FloatNotation.script.write x

/-- The largest power of ten that a finite double can have. -/
def maxFloatMagnitude : Int := 308

/-- The double nearest to `digits * 10 ^ exponent`, if it is finite.  Numbers
that are far too large or far too small are settled by their leading digit, so
that no huge power is computed. -/
def nearestFloat? (digits : Nat) (exponent : Int) : Option Float :=
  if digits = 0 then some 0.0
  else
    let magnitude := exponent + digitCount digits - 1
    if maxFloatMagnitude < magnitude then none
    else if magnitude < -400 then some 0.0
    else
      let x := Float.ofScientific digits (decide (exponent < 0)) exponent.natAbs
      if x.isFinite then some x else none

/-- Read the exponent part of a float literal, given without its mark. -/
def readExponent (text : List Char) : Int :=
  match text with
  | '-' :: digits => - (digitsValue digits : Int)
  | '+' :: digits => digitsValue digits
  | digits => digitsValue digits

/-- Read a float literal: digits, a point, digits, and an optional exponent.
Separators between digits do not count. -/
def readFloat? (text : List Char) : Option Float :=
  let whole := text.takeWhile (· ≠ '.')
  let rest := (text.dropWhile (· ≠ '.')).drop 1
  let isMark := fun c : Char => c = 'e' || c = 'E'
  let fraction := (rest.takeWhile (!isMark ·)).filter (· ≠ '_')
  let exponent := readExponent ((rest.dropWhile (!isMark ·)).drop 1)
  nearestFloat? (digitsValue (whole ++ fraction)) (exponent - fraction.length)

end ChainScript
