import ChainScript.Evaluation.Call

/-
Running scripts.

A task carries out its parts with a worker of one depth less.  Within one call
the parts of a task stand deeper in the program than the task, and the number
of active calls is limited, so the product of the two bounds the depth that
any run can reach.
-/

namespace ChainScript

variable {World : Type}

/-- Carry out a task, given a worker for its parts. -/
def perform (natives : Natives World) (worker : Worker World) : Worker World
  | .expr id => worker.evalExpr id
  | .stmt id => worker.evalStmt id
  | .call function args site => worker.evalCall natives function args site

/-- The worker for tasks that are at most `depth` deep. -/
def evaluate (natives : Natives World) : Nat → Worker World
  | 0, _ => Step.halt .exhausted
  | depth + 1, task => perform natives (evaluate natives depth) task

@[simp] theorem evaluate_zero (natives : Natives World) (task : Task) :
    evaluate natives 0 task = Step.halt .exhausted :=
  rfl

@[simp] theorem evaluate_succ (natives : Natives World) (depth : Nat)
    (task : Task) :
    evaluate natives (depth + 1) task =
      perform natives (evaluate natives depth) task :=
  rfl

/-- Number of nodes of some programs. -/
def totalSize (programs : Array Program) : Nat :=
  programs.foldl (fun size program => size + program.size) 0

namespace Machine

/-- A depth that no run exceeds. -/
def depthBound (machine : Machine World) : Nat :=
  (machine.calls.limit + 2) * (totalSize machine.programs + 2)

/-- A machine that is about to run a program, with the given globals in the
only frame of its scope. -/
def start (heap : Heap) (programs : Array Program) (program : Nat)
    (globals : Container Value) (limit : Nat) (world : World) :
    Machine World :=
  let (env, heap) := heap.pushNew globals []
  { heap, programs, program, env, calls := .empty limit, world }

/-- A machine that is about to run one more program.  It keeps the heap, the
programs and the host of an earlier run, and has a scope of its own. -/
def next (machine : Machine World) (program : Program)
    (globals : Container Value) (limit : Nat) : Machine World :=
  start machine.heap (machine.programs.push program) machine.programs.size
    globals limit machine.world

/-- Bind a name in the innermost frame of the scope. -/
def define (machine : Machine World) (name : String) (value : Value) :
    Machine World :=
  (Run.bind (.badge name) value machine).2

/-- The value of a name in scope. -/
def lookup? (machine : Machine World) (name : String) : Option Value :=
  machine.heap.lookup? machine.env (.badge name)

end Machine

/-- Run a script of the running program in the current scope, given a worker
for each depth.  The value is that of its last statement or of a `return`
outside of all functions. -/
def Worker.script (workers : Nat → Worker World) (script : Script) :
    Run World Value := do
  let depth ← Step.read Machine.depthBound
  Run.catchReturn ((workers depth).stmts script.body)

/-- Call a value from outside of all scripts, given a worker for each depth. -/
def Worker.value (workers : Nat → Worker World) (callee : Value)
    (args : Container Value) : Run World Value := do
  match callee with
  | .function id =>
      let depth ← Step.read Machine.depthBound
      workers depth (.call id args none)
  | other => Run.fault (.typeMismatch (.notCallable other.kindName))

/-- Run a script of the running program in the current scope. -/
def runScript (natives : Natives World) (script : Script) : Run World Value :=
  Worker.script (evaluate natives) script

/-- Call a value from outside of all scripts. -/
def callValue (natives : Natives World) (callee : Value)
    (args : Container Value) : Run World Value :=
  Worker.value (evaluate natives) callee args

end ChainScript
