import ChainScript.Evaluation.Expression

/-
What each form of statement means.
-/

namespace ChainScript

/-- A key as the variable of a loop. -/
def Key.value : Key → Except Cause Value
  | .index position =>
      if position.toNat ≤ maxInteger then .ok (.int (Int64.ofNat position.toNat))
      else .error (.integerOverflow "key conversion")
  | .badge name => .ok (.str name)

/-- A clause that lists some kinds recovers from a fault.  No kinds means all
of them, and signals are never recovered from. -/
def Reason.caughtBy (reason : Reason) (kinds : List String) : Bool :=
  match reason with
  | .signal _ => false
  | .fault cause => kinds.isEmpty || kinds.any fun kind => kind = cause.kind.name

/-- What a recovering block gets to see of a fault: a raised value as it is,
and a description of any other fault. -/
inductive Caught where
  | raised (value : Value)
  | described (content : Container Value)

/-- The description of a fault: its kind, its message, and the name that it is
about, if there is one. -/
def Cause.caught : Cause → Caught
  | .raised value _ => .raised value
  | cause =>
      let named : List (Key × Value) :=
        match cause.subject? with
        | some subject => [(.badge "name", .str subject)]
        | none => []
      .described (.ofPairs ([(.badge "kind", .str cause.kind.name),
        (.badge "message", .str cause.message)] ++ named))

namespace Worker

variable {World : Type} (worker : Worker World)

/-- A conditional. -/
def branch (condition : ExprId) (thenBlock : Block)
    (elseBlock : Option Block) : Run World Value := do
  let value ← worker.expr condition
  match toCondition "`if` condition" value with
  | .error cause =>
      let program ← Run.program
      let expr ← Step.found (program.expr? condition)
      Run.faultAt expr.span cause
  | .ok true => worker.block thenBlock
  | .ok false =>
      match elseBlock with
      | some block => worker.block block
      | none => return .null

/-- The bindings of one round of a loop. -/
def roundBindings (key : Option String) (value : String)
    (entry : Key × Value) : Except Cause (Container Value) := do
  match key with
  | some key =>
      return (Container.empty.set (.badge key) (← entry.1.value)).set
        (.badge value) entry.2
  | none => return Container.empty.set (.badge value) entry.2

/-- The rounds of a loop. -/
def rounds (key : Option String) (value : String) (body : Block) :
    List (Key × Value) → Run World Value
  | [] => pure .null
  | entry :: rest => do
      let content ← Run.ofExcept (roundBindings key value entry)
      match ← Step.attempt (worker.blockWith content body) with
      | .ok _ => rounds key value body rest
      | .error exit =>
          match exit.reason with
          | .signal .break => return .null
          | .signal .continue => rounds key value body rest
          | _ => Step.fail exit

/-- A loop over the entries that an array has when the loop starts. -/
def loop (key : Option String) (value : String) (iterated : ExprId)
    (body : Block) : Run World Value := do
  match ← worker.expr iterated with
  | .array chain =>
      let content ← Run.readHeap fun heap => heap.flatten chain
      worker.rounds key value body content.entries
  | other =>
      let program ← Run.program
      let expr ← Step.found (program.expr? iterated)
      Run.faultAt expr.span
        (.typeMismatch (.expected "`for`" "array" other.kindName))

/-- The value that describes a fault. -/
def caughtValue (cause : Cause) : Run World Value :=
  match cause.caught with
  | .raised value => pure value
  | .described content => Run.newArray content

/-- The bindings of a recovering block. -/
def recoveryBindings (binding : Option String) (cause : Cause) :
    Run World (Container Value) := do
  match binding with
  | some name =>
      return Container.empty.set (.badge name) (← caughtValue cause)
  | none => return .empty

/-- A block whose faults are recovered from. -/
def attempt (body : Block) (recovery : CatchClause) : Run World Value := do
  match ← Step.attempt (worker.block body) with
  | .ok value => return value
  | .error exit =>
      let program ← Run.program
      let kinds ← Step.found (program.names? recovery.kinds)
      match exit.reason with
      | .signal _ => Step.fail exit
      | .fault cause =>
          if exit.reason.caughtBy kinds then
            worker.blockWith (← recoveryBindings recovery.binding cause)
              recovery.body
          else
            Step.fail exit

/-- A hook of a resource: a function that its array has under a label. -/
def hook? (resource : Value) (label : String) :
    Run World (Option FunctionId) := do
  match resource with
  | .array chain =>
      match ← Run.readHeap fun heap => heap.lookup? chain (.badge label) with
      | some (.function id) => return some id
      | _ => return none
  | _ => return none

/-- Run the enter hook, if there is one.  Without one the answer is the
resource itself. -/
def entering (enter : Option FunctionId) (span : Span) (resource : Value) :
    Run World Value :=
  match enter with
  | some id => worker (.call id .empty (some span))
  | none => pure resource

/-- Run a body and then the release hook, if there is one.  The hook runs
however the body ends; its fault is dropped in favour of one of the body. -/
def releasing (release : Option FunctionId) (span : Span)
    (body : Run World Value) : Run World Value :=
  match release with
  | none => body
  | some id => do
      let result ← Step.attempt body
      let released ← Step.attempt (worker (.call id .empty (some span)))
      match result, released with
      | .ok value, .ok _ => return value
      | .ok _, .error exit => Step.fail exit
      | .error exit, _ => Step.fail exit

/-- The bindings of a block that uses a resource. -/
def resourceBindings (binding : Option String) (bound : Value) :
    Container Value :=
  match binding with
  | some name => Container.empty.set (.badge name) bound
  | none => .empty

/-- A block that uses a resource, between the resource's two hooks. -/
def resource (acquired : ExprId) (binding : Option String) (body : Block)
    (span : Span) : Run World Value := do
  let resource ← worker.expr acquired
  let enter ← hook? resource "enter"
  let release ← hook? resource "release"
  let bound ← worker.entering enter span resource
  worker.releasing release span
    (worker.blockWith (resourceBindings binding bound) body)

/-- A name bound to a value, which is also the answer. -/
def bound (name : String) (value : Value) : Run World Value := do
  Run.bind (.badge name) value
  return value

/-- Run a block in a new frame on top of an array, with the scope behind it.
The answer is the frame, which holds what the block has bound. -/
def ownFrame (base : Chain) (body : Block) : Run World FrameId := do
  let own ← Run.withHeap fun heap => heap.addFrame .empty
  let outer ← Step.read Machine.env
  let scope ← Run.withHeap fun heap =>
    let (chain, heap) := heap.stack base outer
    heap.push own chain
  let _ ← Run.inChain scope (worker.stmts body.stmts)
  return own

/-- A block whose bindings extend a named array.  What it binds becomes the
innermost frame of a new array. -/
def inherit (name parent : String) (body : Block) : Run World Value := do
  match ← Run.lookup (.badge parent) with
  | .array base =>
      let own ← worker.ownFrame base body
      let chain ← Run.withHeap fun heap => heap.push own base
      bound name (.array chain)
  | other =>
      Run.fault (.typeMismatch (.expected "`inherit`" "array" other.kindName))

/-- What a statement evaluates before it does anything itself.  An exit on the
way does not get the place of the statement. -/
def operand : StmtKind → Run World Value
  | .assignBlock _ body => worker.block body
  | .return value | .raise value => worker.optional value
  | _ => pure .null

/-- A form of statement at a place, given the value of its operand. -/
def stmtKind (span : Span) (operand : Value) : StmtKind → Run World Value
  | .expr value => worker.expr value
  | .branch condition thenBlock elseBlock =>
      worker.branch condition thenBlock elseBlock
  | .scope body => worker.block body
  | .loop key value iterated body => worker.loop key value iterated body
  | .attempt body recovery => worker.attempt body recovery
  | .resource acquired binding body =>
      worker.resource acquired binding body span
  | .assignBlock name _ => bound name operand
  | .funcBlock name definition => do
      bound name (← Run.newClosure name definition)
  | .inheritBlock name parent body => worker.inherit name parent body
  | .return _ => Run.signal (.return operand)
  | .break => Run.signal .break
  | .continue => Run.signal .continue
  | .raise _ => do Run.fault (.raised operand (← Run.textOf operand))

/-- Run a statement of the running program. -/
def evalStmt (id : StmtId) : Run World Value := do
  let program ← Run.program
  let stmt ← Step.found (program.stmt? id)
  let operand ← worker.operand stmt.kind
  Run.located stmt.span (worker.stmtKind stmt.span operand stmt.kind)

variable {worker} in
theorem evalStmt_apply {machine : Machine World} {program : Program}
    {id : StmtId} {stmt : Stmt}
    (hprogram : machine.programs[machine.program]? = some program)
    (hstmt : program.stmt? id = some stmt) :
    worker.evalStmt id machine =
      (worker.operand stmt.kind >>= fun operand =>
        Run.located stmt.span (worker.stmtKind stmt.span operand stmt.kind))
          machine := by
  have hfound : (Step.found (program.stmt? id) : Run World Stmt) machine =
      (.ok stmt, machine) := by
    rw [hstmt]
    rfl
  rw [evalStmt, Step.bind_apply, Run.program_apply hprogram]
  dsimp only
  rw [Step.bind_apply, hfound]

end Worker

end ChainScript
