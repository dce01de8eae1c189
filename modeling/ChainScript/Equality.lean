import ChainScript.Chain
import ChainScript.Display

/-
The two equalities of values.

Scripts compare whole numbers and floats as numbers.  The stricter equality
keeps the kinds apart.  Both compare arrays by their merged entries, in order,
and functions by identity.
-/

namespace ChainScript

/-- Entries agree in order, keys and values, given how to compare values. -/
def entriesAgree? (agree? : Value → Value → Option Bool) :
    List (Key × Value) → List (Key × Value) → Option Bool
  | [], [] => some true
  | (leftKey, left) :: leftRest, (rightKey, right) :: rightRest =>
      if leftKey = rightKey then
        match agree? left right with
        | some true => entriesAgree? agree? leftRest rightRest
        | other => other
      else some false
  | _, _ => some false

theorem entriesAgree?_self {agree? : Value → Value → Option Bool}
    {entries : List (Key × Value)}
    (hagree : ∀ entry ∈ entries, agree? entry.2 entry.2 = some true) :
    entriesAgree? agree? entries entries = some true := by
  induction entries with
  | nil => rfl
  | cons entry rest ih =>
      have hfirst := hagree entry List.mem_cons_self
      have hrest := ih fun other hother =>
        hagree other (List.mem_cons_of_mem entry hother)
      simp [entriesAgree?, hfirst, hrest]

/-- The nearest double of a whole number. -/
def intToFloat (n : Int64) : Float :=
  Float.ofInt n.toInt

/-- Equality of values that are not both arrays. -/
def scalarsSame : Value → Value → Bool
  | .null, .null => true
  | .bool left, .bool right => left == right
  | .int left, .int right => left == right
  | .float left, .float right => left == right
  | .str left, .str right => left == right
  | .function left, .function right => left == right
  | _, _ => false

/-- Equality of values that are not both arrays, in scripts. -/
def scalarsEqual : Value → Value → Bool
  | .int left, .float right => intToFloat left == right
  | .float left, .int right => intToFloat right == left
  | left, right => scalarsSame left right

namespace Heap

variable (heap : Heap)

/-- Equality in scripts, with arrays compared to a given depth. -/
def equalTo? : Nat → Value → Value → Option Bool
  | 0, .array _, .array _ => none
  | depth + 1, .array left, .array right =>
      entriesAgree? (equalTo? depth) (heap.flatten left).entries
        (heap.flatten right).entries
  | _, left, right => some (scalarsEqual left right)

/-- Equality in scripts. -/
def equal? (left right : Value) : Option Bool :=
  heap.equalTo? heap.depthBound left right

/-- Strict equality, with arrays compared to a given depth.  Two arrays of one
chain are the same without being compared. -/
def sameTo? : Nat → Value → Value → Option Bool
  | 0, .array left, .array right =>
      if Chain.same left right then some true else none
  | depth + 1, .array left, .array right =>
      if Chain.same left right then some true
      else
        entriesAgree? (sameTo? depth) (heap.flatten left).entries
          (heap.flatten right).entries
  | _, left, right => some (scalarsSame left right)

/-- Strict equality. -/
def same? (left right : Value) : Option Bool :=
  heap.sameTo? heap.depthBound left right

/-- Strict equality of the entries of two containers. -/
def sameEntries? (left right : Container Value) : Option Bool :=
  entriesAgree? (heap.sameTo? heap.depthBound) left.entries right.entries

end Heap

end ChainScript
