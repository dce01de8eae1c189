import ChainScript.Equality
import ChainScript.Fault
import ChainScript.Outcome

/-
Operators on values.  Every accepted combination of operand kinds has a rule;
all others are type mismatches.
-/

namespace ChainScript

/-- Whole numbers of scripts have 64 bits with a sign. -/
def inIntRange (n : Int) : Bool :=
  -(maxInteger : Int) - 1 ≤ n && n ≤ maxInteger

/-- An exact result, or an overflow if it is out of range. -/
def exactInt (operation : String) (n : Int) : Except Cause Value :=
  if inIntRange n then .ok (.int (Int64.ofInt n))
  else .error (.integerOverflow operation)

theorem exactInt_of_inRange {operation : String} {n : Int}
    (hrange : inIntRange n = true) :
    exactInt operation n = .ok (.int (Int64.ofInt n)) := by
  simp [exactInt, hrange]

/-- What an ordering says about a comparison; other operators have no
answer. -/
def comparisonHolds? (order : Ordering) : BinaryOp → Option Bool
  | .equal => some (order == .eq)
  | .notEqual => some (order != .eq)
  | .less => some (order == .lt)
  | .lessEqual => some (order != .gt)
  | .greater => some (order == .gt)
  | .greaterEqual => some (order != .lt)
  | _ => none

/-- The answer of a comparison, or the mismatch of an operator that is none. -/
def comparison (op : BinaryOp) (order : Ordering) (kind : String) :
    Except Cause Value :=
  match comparisonHolds? order op with
  | some holds => .ok (.bool holds)
  | none => .error (.typeMismatch (.binary op.symbol kind kind))

/-- Operators on whole numbers.  Quotients are cut off toward zero, and a
remainder is refused where its quotient is out of range. -/
def intBinary (op : BinaryOp) (a b : Int64) : Except Cause Value :=
  let left := a.toInt
  let right := b.toInt
  match op with
  | .add => exactInt "addition" (left + right)
  | .sub => exactInt "subtraction" (left - right)
  | .mul => exactInt "multiplication" (left * right)
  | .div =>
      if right = 0 then .error .divisionByZero
      else exactInt "division" (left.tdiv right)
  | .mod =>
      if right = 0 then .error .moduloByZero
      else if inIntRange (left.tdiv right) then
        exactInt "remainder" (left.tmod right)
      else .error (.integerOverflow "remainder")
  | _ => comparison op (compare left right) "int"

/-- What two floats say about a comparison.  An undefined result differs from
everything and is in no order. -/
def floatComparisonHolds? (a b : Float) : BinaryOp → Option Bool
  | .equal => some (a == b)
  | .notEqual => some (a != b)
  | .less => some (a < b)
  | .lessEqual => some (a ≤ b)
  | .greater => some (b < a)
  | .greaterEqual => some (b ≤ a)
  | _ => none

/-- Operators on floats.  A divisor of zero is a fault. -/
def floatBinary (op : BinaryOp) (a b : Float) : Except Cause Value :=
  match op with
  | .add => .ok (.float (a + b))
  | .sub => .ok (.float (a - b))
  | .mul => .ok (.float (a * b))
  | .div =>
      if b == 0.0 then .error .divisionByZero else .ok (.float (a / b))
  | .mod =>
      if b == 0.0 then .error .moduloByZero
      else .ok (.float (floatRemainder a b))
  | _ =>
      match floatComparisonHolds? a b op with
      | some holds => .ok (.bool holds)
      | none => .error (.typeMismatch (.binary op.symbol "float" "float"))

/-- Joining and comparing strings, character by character. -/
def stringBinary (op : BinaryOp) (a b : String) : Except Cause Value :=
  match op with
  | .add => .ok (.str (a ++ b))
  | _ => comparison op (compare a b) "str"

/-- The mismatch of an operator that does not apply to two values. -/
def binaryMismatch (op : BinaryOp) (left right : Value) : Cause :=
  .typeMismatch (.binary op.symbol left.kindName right.kindName)

/-- The answer of `==` and `!=`, given whether the values are equal; other
operators do not apply. -/
def equality (op : BinaryOp) (equal : Bool) (left right : Value) :
    Except Cause Value :=
  match op with
  | .equal => .ok (.bool equal)
  | .notEqual => .ok (.bool (!equal))
  | _ => .error (binaryMismatch op left right)

/-- A result or a cause as an outcome. -/
def Outcome.ofExcept {ε α : Type} : Except ε α → Outcome ε α
  | .ok value => .ok value
  | .error failure => .error failure

/-- Every binary operator but the two logical ones, which do not apply to any
values. -/
def Heap.binary (heap : Heap) (op : BinaryOp) (left right : Value) :
    Outcome Cause Value :=
  match left, right with
  | .int a, .int b => .ofExcept (intBinary op a b)
  | .float a, .float b => .ofExcept (floatBinary op a b)
  | .int a, .float b => .ofExcept (floatBinary op (intToFloat a) b)
  | .float a, .int b => .ofExcept (floatBinary op a (intToFloat b))
  | .str a, .str b => .ofExcept (stringBinary op a b)
  | .bool a, .bool b => .ofExcept (equality op (a == b) left right)
  | .null, .null => .ofExcept (equality op true left right)
  | .null, _ | _, .null => .ofExcept (equality op false left right)
  | .array _, .array _ =>
      match op with
      | .equal | .notEqual =>
          match heap.equal? left right with
          | some equal => .ofExcept (equality op equal left right)
          | none => .halted .exhausted
      | _ => .error (binaryMismatch op left right)
  | .function a, .function b => .ofExcept (equality op (a == b) left right)
  | _, _ => .error (binaryMismatch op left right)

/-- The array `specific` on top of the array `base`, or the function with
further arguments bound. -/
def Heap.compose (heap : Heap) (left right : Value) :
    Except Cause (Value × Heap) :=
  match left, right with
  | .array base, .array specific =>
      let (chain, heap) := heap.stack specific base
      .ok (.array chain, heap)
  | .function id, .array args =>
      let (id, heap) := heap.bindFunction id (heap.flatten args)
      .ok (.function id, heap)
  | _, _ =>
      .error (.typeMismatch (.binary "&" left.kindName right.kindName))

/-- A value as a condition: a truth value is itself, and null is false.  The
construct is named in the fault. -/
def toCondition (construct : String) : Value → Except Cause Bool
  | .bool b => .ok b
  | .null => .ok false
  | other => .error (.typeMismatch (.expected construct "bool" other.kindName))

/-- Unary operators. -/
def unary (op : UnaryOp) (operand : Value) : Except Cause Value :=
  match op, operand with
  | .neg, .int n => exactInt "negation" (-n.toInt)
  | .neg, .float x => .ok (.float (-x))
  | .plus, .int _ | .plus, .float _ => .ok operand
  | .not, _ => (toCondition "`not`" operand).map fun b => .bool (!b)
  | _, _ => .error (.typeMismatch (.unary op.symbol operand.kindName))

end ChainScript
