import ChainScript.Fault

/-
The calls that are active, and their limit.
-/

namespace ChainScript

/-- An active call: the function's name and the place of the call. -/
structure ActiveCall where
  name : String
  span : Option Span
deriving Repr, DecidableEq

/-- The name under which a function is reported. -/
def functionLabel (name : String) : String :=
  if name.isEmpty then "<anonymous>" else name

/-- Active calls, outermost first, and how many there may be. -/
structure CallStack where
  calls : Array ActiveCall
  limit : Nat
deriving Repr, DecidableEq

namespace CallStack

/-- Calls that may be active unless another limit is set. -/
def defaultLimit : Nat := 512

def empty (limit : Nat) : CallStack :=
  ⟨#[], limit⟩

def depth (stack : CallStack) : Nat :=
  stack.calls.size

/-- Add a call, unless the stack is full. -/
def push (stack : CallStack) (call : ActiveCall) : Except Cause CallStack :=
  if stack.limit ≤ stack.depth then .error (.recursionLimit stack.limit)
  else .ok { stack with calls := stack.calls.push call }

/-- Remove the most recent call. -/
def pop (stack : CallStack) : CallStack :=
  { stack with calls := stack.calls.pop }

/-- The active calls, most recent first. -/
def capture (stack : CallStack) : Backtrace :=
  stack.calls.toList.reverse.map fun call =>
    ⟨functionLabel call.name, call.span⟩

/-- Note the active calls in a fault that has none noted yet.  Signals are left
alone, and so is everything while no call is active. -/
def attach (stack : CallStack) (exit : Exit) : Exit :=
  if exit.reason.isSignal || exit.trace.isSome || stack.depth = 0 then exit
  else exit.withTrace stack.capture

theorem push_of_lt {stack : CallStack} (call : ActiveCall)
    (hroom : stack.depth < stack.limit) :
    stack.push call = .ok { stack with calls := stack.calls.push call } := by
  simp [push, Nat.not_le.mpr hroom]

theorem push_of_le {stack : CallStack} (call : ActiveCall)
    (hfull : stack.limit ≤ stack.depth) :
    stack.push call = .error (.recursionLimit stack.limit) := by
  simp [push, hfull]

theorem pop_push {stack pushed : CallStack} {call : ActiveCall}
    (hpush : stack.push call = .ok pushed) : pushed.pop = stack := by
  unfold push at hpush
  split at hpush
  · cases hpush
  · cases hpush
    simp [pop]

theorem reason_attach (stack : CallStack) (exit : Exit) :
    (stack.attach exit).reason = exit.reason := by
  unfold attach
  split <;> rfl

end CallStack

end ChainScript
