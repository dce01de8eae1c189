import ChainScript.Chain
import ChainScript.Decimal.FloatText
import ChainScript.Text.Quoted

/-
The text of values.

A string is written as it is, but quoted inside an array.  An entry of an array
is written without its key where appending would have given it that key.
-/

namespace ChainScript

/-- A label that can be written without quotes: a letter or underscore, then
letters, digits and underscores. -/
def isPlainLabel : List Char → Bool
  | [] => false
  | c :: rest =>
      (c.isAlpha || c = '_') && rest.all fun d => d.isAlphanum || d = '_'

/-- The text of a label as a key. -/
def labelText (name : String) : String :=
  if isPlainLabel name.toList then name else quote name

/-- The text in front of a value, given the position that the next appended
value would get. -/
def entryLead (expected : Nat) : Key → String
  | .badge name => labelText name ++ ": "
  | .index position =>
      if position.toNat = expected then ""
      else toString position.toNat ++ ": "

/-- The position that the next appended value would get after a key. -/
def expectedAfter (expected : Nat) : Key → Nat
  | .badge _ => expected
  | .index position => max expected (position.toNat + 1)

/-- The texts of entries, given how to write their values. -/
def entryTexts? (write? : Value → Option String) (expected : Nat) :
    List (Key × Value) → Option (List String)
  | [] => some []
  | (key, value) :: rest => do
      let text ← write? value
      let others ← entryTexts? write? (expectedAfter expected key) rest
      return (entryLead expected key ++ text) :: others

def Function.text (function : Function) : String :=
  let kind := if function.isNative then "native func" else "func"
  if function.name.isEmpty then "<" ++ kind ++ ">"
  else "<" ++ kind ++ " " ++ function.name ++ ">"

namespace Heap

variable (heap : Heap)

/-- The text of a value, with arrays written to a given depth; `nested` tells
whether the value is inside an array. -/
def textTo? : Nat → Bool → Value → Option String
  | _, _, .null => some "null"
  | _, _, .bool b => some (if b then "true" else "false")
  | _, _, .int n => some (toString n.toInt)
  | _, _, .float x => some (floatText x)
  | _, nested, .str s => some (if nested then quote s else s)
  | _, _, .function id => (heap.function? id).map Function.text
  | 0, _, .array _ => none
  | depth + 1, _, .array chain => do
      let texts ← entryTexts? (textTo? depth true) 0
        (heap.flatten chain).entries
      return "[" ++ ", ".intercalate texts ++ "]"

/-- One more than the number of frames, which bounds how deep arrays can be
inside each other unless one contains itself. -/
def depthBound : Nat :=
  heap.frames.size + 1

/-- The text of a value. -/
def text? (value : Value) : Option String :=
  heap.textTo? heap.depthBound false value

end Heap

end ChainScript
