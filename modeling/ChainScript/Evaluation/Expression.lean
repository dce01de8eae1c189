import ChainScript.Machine

/-
What each form of expression means.
-/

namespace ChainScript

/-- The key that a value denotes: a position or a label. -/
def Value.key : Value → Except Cause Key
  | .int n =>
      if 0 ≤ n.toInt then .ok (.index n.toUInt64)
      else .error (.typeMismatch (.invalidKey "negative int"))
  | .str text => .ok (.badge text)
  | other => .error (.typeMismatch (.invalidKey other.kindName))

namespace Worker

variable {World : Type} (worker : Worker World)

/-- A member of an array. -/
def memberOf (receiver : Value) (key : Key) : Run World Value := do
  match receiver with
  | .array chain =>
      match ← Run.readHeap fun heap => heap.lookup? chain key with
      | some value => return value
      | none => Run.fault (.keyNotFound key.text)
  | other =>
      Run.fault
        (.typeMismatch (.expected "member lookup" "array" other.kindName))

/-- Add one entry to the content of an array or argument container. -/
def entry (content : Container Value) (entry : Entry) :
    Run World (Container Value) := do
  match entry.kind with
  | .item value => return (content.append (← worker.expr value)).2
  | .keyed key value => return content.set key (← worker.expr value)
  | .expand name =>
      match ← Run.located entry.span (Run.lookup (.badge name)) with
      | .array chain =>
          let others ← Run.readHeap fun heap => heap.flatten chain
          return content.expand others.entries
      | other =>
          Run.faultAt entry.span
            (.typeMismatch (.expected "`...`" "array" other.kindName))

/-- Add entries in order. -/
def entriesFrom (content : Container Value) :
    List Entry → Run World (Container Value)
  | [] => pure content
  | first :: rest => do entriesFrom (← worker.entry content first) rest

/-- The content of an array literal or an argument list. -/
def entries (range : EntryRange) : Run World (Container Value) := do
  let program ← Run.program
  let entries ← Step.found (program.entries? range)
  worker.entriesFrom .empty entries

/-- The name of a logical operator in faults. -/
def logicalName (op : BinaryOp) : String :=
  if op = .and then "`and`" else "`or`"

/-- A logical operator.  The right operand is not evaluated if the left one
settles the answer. -/
def logical (op : BinaryOp) (left right : ExprId) : Run World Value := do
  let first ← Run.ofExcept (toCondition (logicalName op) (← worker.expr left))
  if first = (op = .or) then
    return .bool first
  else
    let second ←
      Run.ofExcept (toCondition (logicalName op) (← worker.expr right))
    return .bool second

/-- A binary operator. -/
def binary (op : BinaryOp) (left right : ExprId) : Run World Value := do
  match op with
  | .and | .or => worker.logical op left right
  | _ =>
      let first ← worker.expr left
      let second ← worker.expr right
      Run.ofOutcome (← Run.readHeap fun heap => heap.binary op first second)

/-- Composition. -/
def compose (left right : ExprId) : Run World Value := do
  let first ← worker.expr left
  let second ← worker.expr right
  Run.ofExcept (← Run.compose first second)

/-- A call at a place. -/
def callExpr (callee : ExprId) (args : EntryRange) (span : Span) :
    Run World Value := do
  let function ← worker.expr callee
  let args ← worker.entries args
  match function with
  | .function id => worker (.call id args (some span))
  | other => Run.fault (.typeMismatch (.notCallable other.kindName))

/-- A form of expression at a place. -/
def exprKind (span : Span) : ExprKind → Run World Value
  | .null => pure .null
  | .bool b => pure (.bool b)
  | .int n => pure (.int n)
  | .float x => pure (.float x)
  | .str text => pure (.str text)
  | .ident name => Run.lookup (.badge name)
  | .badge key => Run.lookup key
  | .member receiver key => do memberOf (← worker.expr receiver) key
  | .index receiver key => do
      let array ← worker.expr receiver
      let key ← Run.ofExcept (← worker.expr key).key
      memberOf array key
  | .array range | .args range => do Run.newArray (← worker.entries range)
  | .binary op left right => worker.binary op left right
  | .unary op operand => do Run.ofExcept (unary op (← worker.expr operand))
  | .compose left right => worker.compose left right
  | .call callee args => worker.callExpr callee args span
  | .assign target value => do
      let value ← worker.expr value
      Run.bind target value
      return value
  | .func definition => do
      let program ← Run.program
      let func ← Step.found (program.func? definition)
      Run.newClosure func.name definition

/-- Evaluate an expression of the running program. -/
def evalExpr (id : ExprId) : Run World Value := do
  let program ← Run.program
  let expr ← Step.found (program.expr? id)
  Run.located expr.span (worker.exprKind expr.span expr.kind)

end Worker

end ChainScript
