import ChainScript.Arguments
import ChainScript.CallStack
import ChainScript.Operators

/-
The state that running code reads and changes, and the host around it.

A function of the host sees its arguments, the heap and the state of the host.
It can make arrays and functions of its own, and it answers with a value or
with an early exit.  It changes no frame that is there already.
-/

namespace ChainScript

/-- What a function of the host does when it is called: it makes arrays and
functions, if it needs any, and then answers.  The answer comes with the state
that the host has from then on. -/
inductive Reply (World : Type) where
  | answer (result : Except Exit Value) (world : World)
  /-- Make an array of one frame. -/
  | array (content : Container Value) (next : Value → Reply World)
  /-- Compose two values, if they can be composed. -/
  | compose (left right : Value) (next : Except Cause Value → Reply World)
  /-- Make another function of the host. -/
  | native (name : String) (next : Value → Reply World)

/-- The functions of a host, which read and change a `World`. -/
structure Natives (World : Type) where
  reply : String → Container Value → Heap → World → Reply World

/-- An answer that takes at most one new array. -/
inductive Response where
  | value (value : Value)
  /-- A new array with the given content. -/
  | array (content : Container Value)
  | exit (exit : Exit)
deriving Repr, DecidableEq

/-- A response as the reply of a host that is left in a given state. -/
def Reply.ofResponse {World : Type} (world : World) : Response → Reply World
  | .value value => .answer (.ok value) world
  | .array content => .array content fun value => .answer (.ok value) world
  | .exit exit => .answer (.error exit) world

/-- A host whose functions respond to their arguments alone. -/
structure Host (World : Type) where
  respond : String → Container Value → World → Response × World

/-- The functions of a host that responds to arguments alone. -/
def Host.natives {World : Type} (host : Host World) : Natives World where
  reply name args _ world :=
    let (response, after) := host.respond name args world
    .ofResponse after response

instance {World : Type} : Coe (Host World) (Natives World) :=
  ⟨Host.natives⟩

/-- The host without functions of its own. -/
def Host.silent : Host Unit where
  respond _ _ world := (.value .null, world)

/-- The state of running code: all frames and functions, all programs, the
number of the program whose code runs, the scope, the active calls, and the
state of the host. -/
structure Machine (World : Type) where
  heap : Heap
  programs : Array Program
  program : Nat
  env : Chain
  calls : CallStack
  world : World

/-- A computation on a machine, which ends in a value or leaves early. -/
abbrev Run (World α : Type) : Type :=
  Step (Machine World) Exit α

namespace Run

open Step

variable {World α : Type}

/-- Leave with a fault. -/
def fault (cause : Cause) : Run World α :=
  Step.fail (.ofCause cause)

/-- Leave with a fault at a place. -/
def faultAt (span : Span) (cause : Cause) : Run World α :=
  Step.fail ((Exit.ofCause cause).withSpan span)

/-- Leave with a signal. -/
def signal (way : Signal) : Run World α :=
  Step.fail (.ofSignal way)

/-- A result, or a fault. -/
def ofExcept : Except Cause α → Run World α
  | .ok value => pure value
  | .error cause => fault cause

/-- A result, or a fault, or neither. -/
def ofOutcome : Outcome Cause α → Run World α
  | .ok value => pure value
  | .error cause => fault cause
  | .halted halt => Step.halt halt

/-- Name a place in an exit that has none. -/
def located (span : Span) (body : Run World α) : Run World α :=
  Step.mapError (fun exit => exit.orSpan span) body

/-- End with the value of a `return`. -/
def catchReturn (body : Run World Value) : Run World Value :=
  fun machine =>
    match body machine with
    | (.error exit, after) =>
        match exit.reason with
        | .signal (.return value) => (.ok value, after)
        | _ => (.error exit, after)
    | other => other

/-- Change the heap. -/
def withHeap (f : Heap → α × Heap) : Run World α :=
  Step.update fun machine =>
    let (value, heap) := f machine.heap
    (value, { machine with heap })

/-- Read the heap. -/
def readHeap (f : Heap → α) : Run World α :=
  Step.read fun machine => f machine.heap

/-- The program whose code runs. -/
def program : Run World Program := do
  Step.found (← Step.read fun machine => machine.programs[machine.program]?)

/-- The value of a key in scope. -/
def lookup? (key : Key) : Run World (Option Value) :=
  Step.read fun machine => machine.heap.lookup? machine.env key

/-- The value of a key in scope, which must have one. -/
def lookup (key : Key) : Run World Value := do
  match ← lookup? key with
  | some value => return value
  | none => fault (.unboundName key.text)

/-- Bind a key in the innermost frame of the scope. -/
def bind (key : Key) (value : Value) : Run World Unit :=
  Step.modify fun machine =>
    let (env, heap) := machine.heap.bind machine.env key value
    { machine with env, heap }

/-- Run code in a new innermost frame. -/
def inFrame (content : Container Value) (body : Run World α) :
    Run World α := do
  Step.modify fun machine =>
    let (env, heap) := machine.heap.pushNew content machine.env
    { machine with env, heap }
  Step.finally_ body fun machine => { machine with env := machine.env.tail }

/-- Run code in another scope. -/
def inChain (chain : Chain) (body : Run World α) : Run World α := do
  let outer ← Step.read Machine.env
  Step.modify fun machine => { machine with env := chain }
  Step.finally_ body fun machine => { machine with env := outer }

/-- Run code of another program. -/
def inProgram (number : Nat) (body : Run World α) : Run World α := do
  let outer ← Step.read Machine.program
  Step.modify fun machine => { machine with program := number }
  Step.finally_ body fun machine => { machine with program := outer }

/-- Note the active calls in the faults of a body. -/
def noting (body : Run World α) : Run World α :=
  fun machine =>
    match body machine with
    | (.error exit, after) => (.error (after.calls.attach exit), after)
    | other => other

/-- Run the body of an active call, noting the active calls in its faults. -/
def inCall (call : ActiveCall) (body : Run World α) : Run World α := do
  let calls ← ofExcept ((← Step.read Machine.calls).push call)
  Step.modify fun machine => { machine with calls }
  Step.finally_ (noting body) fun machine =>
    { machine with calls := machine.calls.pop }

/-- Make an array of one frame. -/
def newArray (content : Container Value) : Run World Value :=
  withHeap fun heap => heap.addArray content

/-- Make a function of the running program that captures the scope. -/
def newClosure (name : String) (definition : FuncId) : Run World Value :=
  Step.update fun machine =>
    let (id, heap) := machine.heap.addFunction
      { name, body := .script machine.program definition machine.env }
    (.function id, { machine with heap })

/-- Make a function of the host. -/
def newNative (name : String) : Run World Value :=
  withHeap fun heap =>
    let (id, heap) := heap.addFunction { name, body := .native }
    (.function id, heap)

/-- Compose two values, if they can be composed. -/
def compose (left right : Value) : Run World (Except Cause Value) := do
  match ← readHeap fun heap => heap.compose left right with
  | .ok (value, heap) => withHeap fun _ => (.ok value, heap)
  | .error cause => return .error cause

/-- Do what the host does when one of its functions is called. -/
def carryOut : Reply World → Run World Value
  | .answer result world => do
      Step.modify fun machine => { machine with world }
      match result with
      | .ok value => return value
      | .error exit => Step.fail exit
  | .array content next => do carryOut (next (← newArray content))
  | .compose left right next => do carryOut (next (← compose left right))
  | .native name next => do carryOut (next (← newNative name))

/-- Call a function of the host. -/
def askHost (natives : Natives World) (name : String)
    (args : Container Value) : Run World Value := do
  carryOut (← Step.read fun machine =>
    natives.reply name args machine.heap machine.world)

/-- The text of a value. -/
def textOf (value : Value) : Run World String := do
  Step.ofOutcome (.ofOption .exhausted
    (← readHeap fun heap => heap.text? value))

theorem program_apply {machine : Machine World} {program : Program}
    (hprogram : machine.programs[machine.program]? = some program) :
    Run.program machine = (.ok program, machine) := by
  rw [Run.program, bind_apply, read_apply, hprogram]
  rfl

theorem lookup_apply (key : Key) (machine : Machine World) :
    lookup key machine =
      match machine.heap.lookup? machine.env key with
      | some value => (.ok value, machine)
      | none => (.error (.ofCause (.unboundName key.text)), machine) := by
  rw [lookup, bind_apply, lookup?, read_apply]
  cases machine.heap.lookup? machine.env key <;> rfl

theorem snd_catchReturn (body : Run World Value) (machine : Machine World) :
    (catchReturn body machine).2 = (body machine).2 := by
  unfold catchReturn
  rcases body machine with ⟨outcome, after⟩
  cases outcome with
  | error exit =>
      dsimp only
      split <;> rfl
  | _ => rfl

theorem snd_noting (body : Run World α) (machine : Machine World) :
    (noting body machine).2 = (body machine).2 := by
  unfold noting
  rcases body machine with ⟨outcome, after⟩
  cases outcome <;> rfl

theorem inFrame_apply (content : Container Value) (body : Run World α)
    (machine : Machine World) :
    inFrame content body machine =
      let result := body { machine with
        env := (machine.heap.pushNew content machine.env).1
        heap := (machine.heap.pushNew content machine.env).2 }
      (result.1, { result.2 with env := result.2.env.tail }) :=
  rfl

theorem inChain_apply (chain : Chain) (body : Run World α)
    (machine : Machine World) :
    inChain chain body machine =
      let result := body { machine with env := chain }
      (result.1, { result.2 with env := machine.env }) :=
  rfl

theorem inProgram_apply (number : Nat) (body : Run World α)
    (machine : Machine World) :
    inProgram number body machine =
      let result := body { machine with program := number }
      (result.1, { result.2 with program := machine.program }) :=
  rfl

/-- A call that finds no room is refused, and nothing else happens. -/
theorem inCall_of_error {call : ActiveCall} {machine : Machine World}
    {cause : Cause} (hpush : machine.calls.push call = .error cause)
    (body : Run World α) :
    inCall call body machine = (.error (.ofCause cause), machine) := by
  simp only [inCall, bind_apply, read_apply, hpush]
  rfl

theorem inCall_of_ok {call : ActiveCall} {machine : Machine World}
    {calls : CallStack} (hpush : machine.calls.push call = .ok calls)
    (body : Run World α) :
    inCall call body machine =
      let result := noting body { machine with calls }
      (result.1, { result.2 with calls := result.2.calls.pop }) := by
  simp only [inCall, bind_apply, read_apply, hpush]
  rfl

end Run

/-- A piece of work that other work may be part of. -/
inductive Task where
  | expr (id : ExprId)
  | stmt (id : StmtId)
  | call (function : FunctionId) (args : Container Value) (site : Option Span)
deriving Repr, DecidableEq

/-- A way to carry out tasks. -/
abbrev Worker (World : Type) : Type :=
  Task → Run World Value

namespace Worker

variable {World : Type} (worker : Worker World)

def expr (id : ExprId) : Run World Value :=
  worker (.expr id)

/-- The value of an expression that may be missing. -/
def optional : Option ExprId → Run World Value
  | some id => worker.expr id
  | none => pure .null

/-- Run statements in order; the value is that of the last one. -/
def stmtsFrom (last : Value) : List StmtId → Run World Value
  | [] => pure last
  | id :: rest => do stmtsFrom (← worker (.stmt id)) rest

/-- Run a list of statements of the running program. -/
def stmts (range : StmtRange) : Run World Value := do
  let program ← Run.program
  let ids ← Step.found (program.stmtList? range)
  worker.stmtsFrom .null ids

/-- Run a block in a new frame that holds some bindings. -/
def blockWith (content : Container Value) (block : Block) : Run World Value :=
  Run.inFrame content (worker.stmts block.stmts)

/-- Run a block in a new frame. -/
def block (block : Block) : Run World Value :=
  worker.blockWith .empty block

end Worker

end ChainScript
