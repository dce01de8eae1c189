/-
Runs of decimal digits, in which separators between digits do not count.
-/

namespace ChainScript

/-- The characters of a run: a digit, or the separator. -/
def isDigitOrSeparator (c : Char) : Bool :=
  c.isDigit || c = '_'

/-- The number that a decimal digit stands for. -/
def digitValue (c : Char) : Nat :=
  c.toNat - '0'.toNat

/-- A run extended by one character. -/
def extendValue (value : Nat) (c : Char) : Nat :=
  if c = '_' then value else value * 10 + digitValue c

/-- The whole number that a run denotes. -/
def digitsValue (digits : List Char) : Nat :=
  digits.foldl extendValue 0

@[simp] theorem digitsValue_nil : digitsValue [] = 0 :=
  rfl

theorem digitsValue_append_singleton (digits : List Char) (c : Char) :
    digitsValue (digits ++ [c]) = extendValue (digitsValue digits) c := by
  simp [digitsValue]

/-- The largest whole number of a script. -/
def maxInteger : Nat :=
  9223372036854775807

/-- Extend a value that is in range, refusing to leave the range either when
it is scaled or when the digit is added. -/
def extendBounded? (value : Nat) (c : Char) : Option Nat :=
  if c = '_' then some value
  else if maxInteger < value * 10 then none
  else if maxInteger < value * 10 + digitValue c then none
  else some (value * 10 + digitValue c)

/-- Read a run as a whole number of a script.  The value is kept in range at
every step, so a long run with a small value is accepted and one that leaves
the range is refused where it does so. -/
def readInteger? (digits : List Char) : Option Int64 :=
  (digits.foldlM extendBounded? 0).map Int64.ofNat

/-- Number of decimal digits of a whole number, one for zero. -/
def digitCount (n : Nat) : Nat :=
  (Nat.toDigits 10 n).length

example : readInteger? "00_12".toList = some 12 := by
  decide +kernel

example : readInteger? "9223372036854775807".toList = some 9223372036854775807 := by
  decide +kernel

example : readInteger? "9223372036854775808".toList = none := by
  decide +kernel

end ChainScript
