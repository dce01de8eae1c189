import ChainScript.Evaluation.Statement

/-
What a call of a function means.  The body runs in the scope that the function
captured, under a frame that holds the parameters.
-/

namespace ChainScript

namespace Worker

variable {World : Type} (worker : Worker World)

/-- The frame of a call: parameters bound to what the arguments supply. -/
def callFrame (content : Container Value) :
    List (String × Supplied) → Run World (Container Value)
  | [] => pure content
  | (name, .value value) :: rest =>
      callFrame (content.set (.badge name) value) rest
  | (name, .rest entries) :: rest => do
      let value ← Run.newArray entries
      callFrame (content.set (.badge name) value) rest

/-- Bind the remaining parameters to their defaults, each of which sees the
parameters bound before it. -/
def defaults : List (String × ExprId) → Run World Unit
  | [] => pure ()
  | (name, default) :: rest => do
      Run.bind (.badge name) (← worker.expr default)
      defaults rest

/-- Run the body of a function of a program, in a frame that holds the
parameters bound so far. -/
def runBody (number : Nat) (func : FuncDef) (captured : Chain)
    (content : Container Value) (unbound : List (String × ExprId)) :
    Run World Value := do
  let scope ← Run.withHeap fun heap => heap.pushNew content captured
  Run.inProgram number <| Run.inChain scope do
    worker.defaults unbound
    Run.catchReturn (worker.stmts func.body.stmts)

/-- Call a function of a program. -/
def callScript (name : String) (number : Nat) (definition : FuncId)
    (captured : Chain) (args : Container Value) : Run World Value := do
  let program ←
    Step.found (← Step.read fun machine => machine.programs[number]?)
  let func ← Step.found (program.func? definition)
  let params ← Step.found (program.params? func.params)
  let bindings ← Run.ofExcept
    (bindArguments (functionLabel name) params args)
  let content ← callFrame .empty bindings.supplied
  worker.runBody number func captured content bindings.defaults

/-- Call a function.  Its bound arguments come before those of the call. -/
def evalCall (natives : Natives World) (id : FunctionId)
    (args : Container Value) (site : Option Span) : Run World Value := do
  let function ← Step.found (← Run.readHeap fun heap => heap.function? id)
  let args := function.bound.expand args.entries
  Run.inCall ⟨function.name, site⟩ <|
    match function.body with
    | .native => Run.askHost natives function.name args
    | .script number definition captured =>
        worker.callScript function.name number definition captured args

end Worker

end ChainScript
