/-
Finite doubles as a sign, a whole mantissa and a power of two.  Working on
these parts keeps every step in exact whole-number arithmetic.
-/

namespace ChainScript

/-- The number `± mantissa * 2 ^ exponent`. -/
structure FloatParts where
  negative : Bool
  mantissa : Nat
  exponent : Int
deriving Repr, DecidableEq

/-- The exponent of the smallest positive double. -/
def FloatParts.minExponent : Int := -1074

/-- The sign bit of a double. -/
def signBit : Nat := 0x8000000000000000

/-- The smallest mantissa whose leading bit is in place; doubles leave that bit
out of their encoding. -/
def leadingBit : Nat := 0x10000000000000

/-- The parts of a double given by its bits; infinities and undefined results
have none. -/
def FloatParts.ofBits? (bits : Nat) : Option FloatParts :=
  let negative := bits / signBit % 2 = 1
  let field : Nat := bits / leadingBit % 2048
  let fraction : Nat := bits % leadingBit
  if field = 2047 then none
  else if field = 0 then some ⟨decide negative, fraction, minExponent⟩
  else some ⟨decide negative, fraction + leadingBit, (field : Int) - 1075⟩

def FloatParts.ofFloat? (x : Float) : Option FloatParts :=
  FloatParts.ofBits? x.toBits.toNat

/-- The bits of a number whose mantissa and exponent fit a double.  The
mantissa is moved up until its leading bit is in place or the exponent is the
smallest one. -/
def FloatParts.bits (parts : FloatParts) : Nat :=
  let sign := if parts.negative then signBit else 0
  if parts.mantissa = 0 then sign
  else
    let room := (parts.exponent - minExponent).toNat
    let move := min (52 - parts.mantissa.log2) room
    let mantissa := parts.mantissa * Nat.pow 2 move
    if mantissa < leadingBit then sign + mantissa
    else
      let field := (parts.exponent - move + 1075).toNat
      sign + field * leadingBit + (mantissa - leadingBit)

def FloatParts.toFloat (parts : FloatParts) : Float :=
  Float.ofBits (UInt64.ofNat parts.bits)

/-- The remainder of a division whose quotient is cut off toward zero.  Both
numbers are brought to the smaller of the two exponents, where the remainder
is one of whole numbers, so the answer is exact.  It has the sign of the
dividend. -/
def FloatParts.remainder (dividend divisor : FloatParts) : FloatParts :=
  let exponent := min dividend.exponent divisor.exponent
  let left :=
    dividend.mantissa * Nat.pow 2 (dividend.exponent - exponent).toNat
  let right := divisor.mantissa * Nat.pow 2 (divisor.exponent - exponent).toNat
  ⟨dividend.negative, left % right, exponent⟩

/-- The remainder of two doubles.  A finite dividend is smaller than an
infinite divisor and so is its own remainder; every other case that involves
a number without parts is undefined. -/
def floatRemainder (dividend divisor : Float) : Float :=
  match FloatParts.ofFloat? dividend, FloatParts.ofFloat? divisor with
  | some left, some right => (left.remainder right).toFloat
  | some _, none => if divisor.isNaN then divisor else dividend
  | none, _ => 0.0 / 0.0

example : FloatParts.ofBits? 0x3ff8000000000000 =
    some ⟨false, 0x18000000000000, -52⟩ := by
  decide +kernel

example : (FloatParts.mk false 3 (-1)).bits = 0x3ff8000000000000 := by
  decide +kernel

example : ((FloatParts.mk true 11 (-1)).remainder ⟨false, 2, 0⟩).bits =
    (FloatParts.mk true 3 (-1)).bits := by
  decide +kernel

end ChainScript
