import ChainScript.Interpreter
import ChainScript.Parser

/-
Sessions: a host that uses several interpreters, which share one heap.

Each interpreter has its own script, scope and active calls.  The host passes
values from one to another: those that it was answered, and those that it
makes itself.
-/

namespace ChainScript

variable {World : Type}

/-- The values that an early exit carries. -/
def Exit.values (exit : Exit) : List Value :=
  match exit.reason with
  | .fault (.raised value _) => [value]
  | .signal (.return value) => [value]
  | _ => []

/-- The values that the end of a computation hands on. -/
def Outcome.values : Outcome Exit Value → List Value
  | .ok value => [value]
  | .error exit => exit.values
  | .halted _ => []

/-- What an interpreter has to itself. -/
structure Runner where
  script : Script
  program : Nat
  env : Chain
  calls : CallStack
deriving Repr, DecidableEq

/-- All interpreters, what they share, and the values that the host was
answered, latest first. -/
structure Session (World : Type) where
  heap : Heap
  programs : Array Program
  world : World
  runners : List Runner
  answers : List Value

/-- What a host does with an interpreter.  The last three make values for
later use, and do not depend on the interpreter. -/
inductive Use where
  /-- Run the interpreter's script. -/
  | run
  | call (callee : Value) (args : Container Value)
  | define (name : String) (value : Value)
  | lookup (name : String)
  | array (content : Container Value)
  | compose (left right : Value)
  | native (name : String)
deriving Repr, DecidableEq

/-- What a host asks for. -/
inductive Request where
  /-- An interpreter for a new script. -/
  | build (tokens : List Token) (globals : List (String × Value))
      (limit : Nat)
  /-- One more interpreter for the script of another one. -/
  | rebuild (runner : Nat) (globals : List (String × Value)) (limit : Nat)
  | use (runner : Nat) (use : Use)
deriving Repr, DecidableEq

/-- A use as a computation of the interpreter; an unbound name is answered
with null. -/
def Use.body (workers : Nat → Worker World) (script : Script) :
    Use → Run World Value
  | .run => Worker.script workers script
  | .call callee args => Worker.value workers callee args
  | .define name value => do
      Run.bind (.badge name) value
      return .null
  | .lookup name => return (← Run.lookup? (.badge name)).getD .null
  | .array content => Run.newArray content
  | .compose left right => do Run.ofExcept (← Run.compose left right)
  | .native name => Run.newNative name

/-- The content of a frame that holds some globals. -/
def globalFrame (globals : List (String × Value)) : Container Value :=
  .ofPairs (globals.map fun global => (.badge global.1, global.2))

namespace Session

/-- A session with one interpreter, for the script without statements. -/
def start (world : World) : Session World :=
  let (env, heap) := Heap.empty.pushNew .empty []
  { heap, programs := #[.empty 0], world,
    runners := [⟨⟨⟨0, 0, 0⟩, .origin⟩, 0, env, .empty CallStack.defaultLimit⟩],
    answers := [] }

variable (session : Session World)

/-- The machine of an interpreter. -/
def machine (runner : Runner) : Machine World where
  heap := session.heap
  programs := session.programs
  program := runner.program
  env := runner.env
  calls := runner.calls
  world := session.world

/-- Add an interpreter for a script of a program. -/
def addRunner (script : Script) (program : Nat)
    (globals : List (String × Value)) (limit : Nat) : Session World :=
  let (env, heap) := session.heap.pushNew (globalFrame globals) []
  { session with
    heap, runners := session.runners ++ [⟨script, program, env, .empty limit⟩] }

/-- Take over what a computation of an interpreter has done. -/
def resume (number : Nat) (runner : Runner)
    (result : Outcome Exit Value × Machine World) : Session World where
  heap := result.2.heap
  programs := result.2.programs
  world := result.2.world
  runners := session.runners.set number
    { runner with
      program := result.2.program, env := result.2.env,
      calls := result.2.calls }
  answers := result.1.values ++ session.answers

/-- Do what a host asks for.  Nothing is done for a script that is none, or
with an interpreter that does not exist. -/
def serve (workers : Nat → Worker World) :
    Request → Step (Session World) Exit Value
  | .build tokens globals limit, session =>
      match parse session.programs.size tokens with
      | .ok parsed =>
          (.ok .null,
            { session with programs := session.programs.push parsed.program }
              |>.addRunner parsed.script session.programs.size globals limit)
      | _ => (.ok .null, session)
  | .rebuild number globals limit, session =>
      match session.runners[number]? with
      | some runner =>
          (.ok .null,
            session.addRunner runner.script runner.program globals limit)
      | none => (.ok .null, session)
  | .use number use, session =>
      match session.runners[number]? with
      | some runner =>
          let result := use.body workers runner.script (session.machine runner)
          (result.1, session.resume number runner result)
      | none => (.ok .null, session)

/-- Serve requests in order. -/
def serveAll (workers : Nat → Worker World) (requests : List Request) :
    Session World :=
  requests.foldl (fun session request => (serve workers request session).2)
    session

end Session

end ChainScript
