import ChainScript.Interpreter

/-
Two evaluations, compared.

A comparison relates computations on two kinds of machine.  It may tell hosts
and active calls apart, but it relates all work on the rest of the machine to
itself, and it goes through sequences, early exits and changes of scope.  So
what two workers make of an expression or a statement compares as soon as what
they make of its parts does.
-/

namespace ChainScript

open Step

variable {World Shown α β : Type}

/-- What code works on: frames and functions, the programs, the one that runs,
and the scope. -/
structure Scene where
  heap : Heap
  programs : Array Program
  program : Nat
  env : Chain

namespace Machine

def scene (machine : Machine World) : Scene :=
  ⟨machine.heap, machine.programs, machine.program, machine.env⟩

def withScene (scene : Scene) (machine : Machine World) : Machine World where
  heap := scene.heap
  programs := scene.programs
  program := scene.program
  env := scene.env
  calls := machine.calls
  world := machine.world

end Machine

namespace Run

/-- Work on the scene. -/
def onScene (work : Scene → α × Scene) : Run World α :=
  Step.update fun machine =>
    ((work machine.scene).1, machine.withScene (work machine.scene).2)

/-- Make something of the outcome. -/
def mapOutcome (f : Outcome Exit α → Outcome Exit β) (body : Run World α) :
    Run World β :=
  fun machine => (f (body machine).1, (body machine).2)

/-- Run code between two changes of the scene. -/
def between (enter leave : Scene → Scene) (body : Run World α) : Run World α :=
  fun machine =>
    let result := body (machine.withScene (enter machine.scene))
    (result.1, result.2.withScene (leave result.2.scene))

end Run

namespace Outcome

/-- What becomes of an outcome when exits are caught. -/
def caught : Outcome Exit α → Outcome Exit (Except Exit α)
  | .ok value => .ok (.ok value)
  | .error exit => .ok (.error exit)
  | .halted reason => .halted reason

/-- What becomes of an outcome when a place is named. -/
def placed (span : Span) : Outcome Exit α → Outcome Exit α
  | .error exit => .error (exit.orSpan span)
  | other => other

/-- What becomes of an outcome when a `return` is caught. -/
def returned : Outcome Exit Value → Outcome Exit Value
  | .error exit =>
      match exit.reason with
      | .signal (.return value) => .ok value
      | _ => .error exit
  | other => other

end Outcome

/-- An abandoned computation stays abandoned. -/
def KeepsHalts (f : Outcome Exit α → Outcome Exit β) : Prop :=
  ∀ reason, f (.halted reason) = .halted reason

namespace Run

theorem attempt_eq_mapOutcome (body : Run World α) :
    Step.attempt body = body.mapOutcome Outcome.caught := by
  funext machine
  unfold Step.attempt mapOutcome
  rcases body machine with ⟨outcome, after⟩
  cases outcome <;> rfl

theorem located_eq_mapOutcome (span : Span) (body : Run World α) :
    located span body = body.mapOutcome (Outcome.placed span) := by
  funext machine
  unfold located mapError mapOutcome
  rcases body machine with ⟨outcome, after⟩
  cases outcome <;> rfl

theorem catchReturn_eq_mapOutcome (body : Run World Value) :
    catchReturn body = body.mapOutcome Outcome.returned := by
  funext machine
  unfold catchReturn mapOutcome
  rcases body machine with ⟨outcome, after⟩
  cases outcome with
  | error exit =>
      unfold Outcome.returned
      dsimp only
      split <;> simp_all
  | _ => rfl

end Run

namespace Step

variable {σ ε : Type}

/-- What comes after a value, where an error is left as it is. -/
def andThen (next : α → Step σ ε β) : Except ε α → Step σ ε β
  | .ok value => next value
  | .error failure => fail failure

/-- A sequence is a recovery that leaves errors as they are. -/
theorem bind_eq_attempt (first : Step σ ε α) (next : α → Step σ ε β) :
    first >>= next = Step.attempt first >>= andThen next := by
  funext state
  simp only [bind_apply, Step.attempt]
  rcases first state with ⟨outcome, after⟩
  cases outcome <;> rfl

end Step

namespace Run

/-- Naming a place is a recovery that fails again. -/
theorem located_eq_attempt (span : Span) (body : Run World α) :
    located span body = Step.attempt body >>= fun result =>
      match result with
      | .ok value => pure value
      | .error exit => Step.fail (exit.orSpan span) := by
  funext machine
  simp only [located, mapError, bind_apply, Step.attempt]
  rcases body machine with ⟨outcome, after⟩
  cases outcome <;> rfl

/-- Ending a call at a `return` is a recovery, too. -/
theorem catchReturn_eq_attempt (body : Run World Value) :
    catchReturn body = Step.attempt body >>= fun result =>
      match result with
      | .ok value => pure value
      | .error exit =>
          match exit.reason with
          | .signal (.return value) => pure value
          | _ => Step.fail exit := by
  funext machine
  simp only [catchReturn, bind_apply, Step.attempt]
  rcases body machine with ⟨outcome, after⟩
  cases outcome with
  | error exit =>
      dsimp only
      split <;> simp_all
  | _ => rfl

end Run

/-- A relation between computations that follows their structure.  They may
leave with different exits, as long as these count as alike. -/
structure Comparison (World Shown : Type) where
  Holds {α : Type} : Run World α → Run Shown α → Prop
  Alike : Exit → Exit → Prop
  alike_self {exit : Exit} : exit.trace = none → Alike exit exit
  reason_eq {exit exit' : Exit} : Alike exit exit' → exit'.reason = exit.reason
  orSpan {exit exit' : Exit} (span : Span) : Alike exit exit' →
    Alike (exit.orSpan span) (exit'.orSpan span)
  protected pure {α : Type} (value : α) : Holds (pure value) (pure value)
  halt {α : Type} (reason : Halt) :
    Holds (Step.halt reason : Run World α) (Step.halt reason)
  fail {α : Type} {exit exit' : Exit} : Alike exit exit' →
    Holds (Step.fail exit : Run World α) (Step.fail exit')
  onScene {α : Type} (work : Scene → α × Scene) :
    Holds (Run.onScene work) (Run.onScene work)
  recover {α β : Type} {first : Run World α} {second : Run Shown α}
    {next : Except Exit α → Run World β}
    {next' : Except Exit α → Run Shown β} :
    Holds first second →
      (∀ value, Holds (next (.ok value)) (next' (.ok value))) →
      (∀ exit exit', Alike exit exit' →
        Holds (next (.error exit)) (next' (.error exit'))) →
      Holds (Step.attempt first >>= next) (Step.attempt second >>= next')
  between {α : Type} {first : Run World α} {second : Run Shown α}
    (enter leave : Scene → Scene) : Holds first second →
      Holds (first.between enter leave) (second.between enter leave)

namespace Comparison

/-- A comparison for which only equal exits are alike. -/
def ofExact {World Shown : Type}
    (Holds : {α : Type} → Run World α → Run Shown α → Prop)
    (ofOutcome : ∀ {α : Type} (outcome : Outcome Exit α),
      Holds (Step.ofOutcome outcome) (Step.ofOutcome outcome))
    (onScene : ∀ {α : Type} (work : Scene → α × Scene),
      Holds (Run.onScene work) (Run.onScene work))
    (bind : ∀ {α β : Type} {first : Run World α} {second : Run Shown α}
      {next : α → Run World β} {next' : α → Run Shown β},
      Holds first second → (∀ value, Holds (next value) (next' value)) →
        Holds (first >>= next) (second >>= next'))
    (mapOutcome : ∀ {α β : Type} {first : Run World α} {second : Run Shown α}
      {f : Outcome Exit α → Outcome Exit β}, KeepsHalts f →
        Holds first second → Holds (first.mapOutcome f) (second.mapOutcome f))
    (between : ∀ {α : Type} {first : Run World α} {second : Run Shown α}
      (enter leave : Scene → Scene), Holds first second →
        Holds (first.between enter leave) (second.between enter leave)) :
    Comparison World Shown where
  Holds := Holds
  Alike exit exit' := exit' = exit
  alike_self _ := rfl
  reason_eq halike := halike ▸ rfl
  orSpan _ halike := halike ▸ rfl
  pure value := ofOutcome (.ok value)
  halt reason := ofOutcome (.halted reason)
  fail halike := halike ▸ ofOutcome (.error _)
  onScene := onScene
  recover {_ _ first second next next'} hbody hvalue hexit := by
    have hattempt : Holds (first.mapOutcome Outcome.caught)
        (second.mapOutcome Outcome.caught) :=
      mapOutcome (fun _ => rfl) hbody
    rw [← Run.attempt_eq_mapOutcome, ← Run.attempt_eq_mapOutcome] at hattempt
    refine bind hattempt fun result => ?_
    cases result with
    | ok value => exact hvalue value
    | error exit => exact hexit exit exit rfl
  between := between

variable (compared : Comparison World Shown)

theorem fail_self {exit : Exit} (huntraced : exit.trace = none) :
    compared.Holds (Step.fail exit : Run World α) (Step.fail exit) :=
  compared.fail (compared.alike_self huntraced)

/-- What comes first compares, and what follows does for every value. -/
theorem bind {first : Run World α} {second : Run Shown α}
    {next : α → Run World β} {next' : α → Run Shown β}
    (hbody : compared.Holds first second)
    (hnext : ∀ value, compared.Holds (next value) (next' value)) :
    compared.Holds (first >>= next) (second >>= next') := by
  rw [bind_eq_attempt first, bind_eq_attempt second]
  apply compared.recover hbody
  · exact hnext
  · exact fun _ _ halike => compared.fail halike

theorem ofOption (halt : Halt) (row : Option α) :
    compared.Holds (Step.ofOutcome (.ofOption halt row))
      (Step.ofOutcome (.ofOption halt row)) := by
  cases row with
  | some value => exact compared.pure value
  | none => exact compared.halt halt

theorem found (row : Option α) :
    compared.Holds (Step.found row) (Step.found row) :=
  compared.ofOption .dangling row

/-- A cause that is raised on the spot has no backtrace yet. -/
theorem ofExcept (result : Except Cause α) :
    compared.Holds (Run.ofExcept result) (Run.ofExcept result) := by
  cases result with
  | ok value => exact compared.pure value
  | error cause => exact compared.fail_self rfl

theorem ofCauses (outcome : Outcome Cause α) :
    compared.Holds (Run.ofOutcome outcome) (Run.ofOutcome outcome) := by
  cases outcome with
  | ok value => exact compared.pure value
  | error cause => exact compared.fail_self rfl
  | halted reason => exact compared.halt reason

/-- Frames are read off the scene. -/
theorem readHeap (f : Heap → α) :
    compared.Holds (Run.readHeap f) (Run.readHeap f) :=
  compared.onScene fun scene => (f scene.heap, scene)

theorem withHeap (f : Heap → α × Heap) :
    compared.Holds (Run.withHeap f) (Run.withHeap f) :=
  compared.onScene fun scene =>
    ((f scene.heap).1, { scene with heap := (f scene.heap).2 })

theorem env : compared.Holds (Step.read Machine.env) (Step.read Machine.env) :=
  compared.onScene fun scene => (scene.env, scene)

theorem programAt (number : Nat) :
    compared.Holds (Step.read fun machine => machine.programs[number]?)
      (Step.read fun machine => machine.programs[number]?) :=
  compared.onScene fun scene => (scene.programs[number]?, scene)

theorem program : compared.Holds Run.program Run.program :=
  compared.bind (compared.onScene fun scene =>
    (scene.programs[scene.program]?, scene)) fun row => compared.found row

theorem lookup? (key : Key) :
    compared.Holds (Run.lookup? key) (Run.lookup? key) :=
  compared.onScene fun scene => (scene.heap.lookup? scene.env key, scene)

theorem lookup (key : Key) :
    compared.Holds (Run.lookup key) (Run.lookup key) := by
  apply compared.bind (compared.lookup? key)
  intro found
  cases found with
  | some value => exact compared.pure value
  | none => exact compared.fail_self rfl

theorem bindKey (key : Key) (value : Value) :
    compared.Holds (Run.bind key value) (Run.bind key value) :=
  compared.onScene fun scene =>
    let bound := scene.heap.bind scene.env key value
    ((), { scene with env := bound.1, heap := bound.2 })

/-- A new function captures the scope of the scene. -/
theorem newClosure (name : String) (definition : FuncId) :
    compared.Holds (Run.newClosure name definition)
      (Run.newClosure name definition) :=
  compared.onScene fun scene =>
    let added := scene.heap.addFunction
      { name, body := .script scene.program definition scene.env }
    (Value.function added.1, { scene with heap := added.2 })

theorem compose (left right : Value) :
    compared.Holds (Run.compose left right) (Run.compose left right) := by
  apply compared.bind (compared.readHeap _)
  intro result
  cases result with
  | ok made => exact compared.withHeap _
  | error cause => exact compared.pure _

theorem textOf (value : Value) :
    compared.Holds (Run.textOf value) (Run.textOf value) :=
  compared.bind (compared.readHeap _) fun _ => compared.ofOption _ _

section Bodies

variable {first : Run World α} {second : Run Shown α}
  (hbody : compared.Holds first second)

include hbody

/-- Exits that are alike stay so where the same place is named. -/
theorem located (span : Span) :
    compared.Holds (Run.located span first) (Run.located span second) := by
  rw [Run.located_eq_attempt, Run.located_eq_attempt]
  exact compared.recover hbody compared.pure fun _ _ halike =>
    compared.fail (compared.orSpan span halike)

/-- The frame that is entered and left is work on the scene. -/
theorem inFrame (content : Container Value) :
    compared.Holds (Run.inFrame content first) (Run.inFrame content second) :=
  compared.between
    (fun scene =>
      let pushed := scene.heap.pushNew content scene.env
      { scene with env := pushed.1, heap := pushed.2 })
    (fun scene => { scene with env := scene.env.tail }) hbody

/-- The outer scope is the same on both sides, so it is put back on both. -/
theorem inChain (chain : Chain) :
    compared.Holds (Run.inChain chain first) (Run.inChain chain second) :=
  compared.bind compared.env fun outer =>
    compared.between (fun scene => { scene with env := chain })
      (fun scene => { scene with env := outer }) hbody

theorem inProgram (number : Nat) :
    compared.Holds (Run.inProgram number first)
      (Run.inProgram number second) :=
  compared.bind (compared.onScene fun scene => (scene.program, scene))
    fun outer =>
      compared.between (fun scene => { scene with program := number })
        (fun scene => { scene with program := outer }) hbody

end Bodies

/-- Exits that are alike have the same reason, so both or neither are caught. -/
theorem catchReturn {first : Run World Value} {second : Run Shown Value}
    (hbody : compared.Holds first second) :
    compared.Holds (Run.catchReturn first) (Run.catchReturn second) := by
  rw [Run.catchReturn_eq_attempt, Run.catchReturn_eq_attempt]
  refine compared.recover hbody compared.pure fun exit exit' halike => ?_
  dsimp only
  rw [compared.reason_eq halike]
  split
  · exact compared.pure _
  · exact compared.fail halike

section Workers

/-- A member of an array is read off the frames, and anything else has none. -/
theorem memberOf (receiver : Value) (key : Key) :
    compared.Holds (Worker.memberOf receiver key)
      (Worker.memberOf receiver key) := by
  cases receiver with
  | array chain =>
      apply compared.bind (compared.readHeap _)
      intro found
      cases found with
      | some value => exact compared.pure value
      | none => exact compared.fail_self rfl
  | _ => exact compared.fail_self rfl

theorem hook? (resource : Value) (label : String) :
    compared.Holds (Worker.hook? resource label)
      (Worker.hook? resource label) := by
  cases resource with
  | array chain =>
      apply compared.bind (compared.readHeap _)
      intro found
      split <;> exact compared.pure _
  | _ => exact compared.pure _

theorem bound (name : String) (value : Value) :
    compared.Holds (Worker.bound name value) (Worker.bound name value) :=
  compared.bind (compared.bindKey _ value) fun _ => compared.pure value

/-- What a handler binds depends on the cause alone. -/
theorem recoveryBindings (binding : Option String) (cause : Cause) :
    compared.Holds (Worker.recoveryBindings binding cause)
      (Worker.recoveryBindings binding cause) := by
  cases binding with
  | none => exact compared.pure _
  | some name =>
      refine compared.bind ?_ fun value => compared.pure _
      unfold Worker.caughtValue
      split
      · exact compared.pure _
      · exact compared.withHeap _

theorem callFrame (content : Container Value)
    (supplied : List (String × Supplied)) :
    compared.Holds (Worker.callFrame content supplied)
      (Worker.callFrame content supplied) := by
  induction supplied generalizing content with
  | nil => exact compared.pure content
  | cons entry rest ih =>
      obtain ⟨name, value | entries⟩ := entry
      · exact ih _
      · exact compared.bind (compared.withHeap _) fun value => ih _

/-- Workers that compare on every task. -/
def Workers (first : Worker World) (second : Worker Shown) : Prop :=
  ∀ task, compared.Holds (first task) (second task)

variable {compared} {first : Worker World} {second : Worker Shown}
  (hworkers : compared.Workers first second)

include hworkers

namespace Workers

theorem optional (expr : Option ExprId) :
    compared.Holds (first.optional expr) (second.optional expr) := by
  cases expr with
  | none => exact compared.pure _
  | some id => exact hworkers _

theorem stmtsFrom (last : Value) (ids : List StmtId) :
    compared.Holds (first.stmtsFrom last ids) (second.stmtsFrom last ids) := by
  induction ids generalizing last with
  | nil => exact compared.pure last
  | cons id rest ih => exact compared.bind (hworkers _) fun value => ih value

theorem stmts (range : StmtRange) :
    compared.Holds (first.stmts range) (second.stmts range) :=
  compared.bind compared.program fun _ =>
    compared.bind (compared.found _) fun ids => hworkers.stmtsFrom .null ids

theorem blockWith (content : Container Value) (block : Block) :
    compared.Holds (first.blockWith content block)
      (second.blockWith content block) :=
  compared.inFrame (hworkers.stmts block.stmts) content

theorem block (block : Block) :
    compared.Holds (first.block block) (second.block block) :=
  hworkers.blockWith .empty block

theorem entry (content : Container Value) (entry : Entry) :
    compared.Holds (first.entry content entry)
      (second.entry content entry) := by
  unfold Worker.entry
  cases entry.kind with
  | item value =>
      exact compared.bind (hworkers _) fun _ => compared.pure _
  | keyed key value =>
      exact compared.bind (hworkers _) fun _ => compared.pure _
  | expand name =>
      apply compared.bind (compared.located (compared.lookup _) entry.span)
      intro value
      cases value with
      | array chain =>
          exact compared.bind (compared.readHeap _) fun _ => compared.pure _
      | _ => exact compared.fail_self rfl

/-- The entries are evaluated from left to right, which the induction follows.
-/
theorem entriesFrom (content : Container Value) (entries : List Entry) :
    compared.Holds (first.entriesFrom content entries)
      (second.entriesFrom content entries) := by
  induction entries generalizing content with
  | nil => exact compared.pure content
  | cons entry rest ih =>
      exact compared.bind (hworkers.entry content entry) fun content =>
        ih content

theorem entries (range : EntryRange) :
    compared.Holds (first.entries range) (second.entries range) :=
  compared.bind compared.program fun _ =>
    compared.bind (compared.found _) fun entries =>
      hworkers.entriesFrom .empty entries

/-- Whether the right operand counts is decided by the value of the left one. -/
theorem logical (op : BinaryOp) (left right : ExprId) :
    compared.Holds (first.logical op left right)
      (second.logical op left right) := by
  apply compared.bind (hworkers _)
  intro value
  apply compared.bind (compared.ofExcept _)
  intro condition
  split
  · exact compared.pure _
  · exact compared.bind (hworkers _) fun _ =>
      compared.bind (compared.ofExcept _) fun _ => compared.pure _

theorem binary (op : BinaryOp) (left right : ExprId) :
    compared.Holds (first.binary op left right)
      (second.binary op left right) := by
  unfold Worker.binary
  split
  · exact hworkers.logical _ left right
  · exact hworkers.logical _ left right
  · exact compared.bind (hworkers _) fun _ =>
      compared.bind (hworkers _) fun _ =>
        compared.bind (compared.readHeap _) fun outcome =>
          compared.ofCauses outcome

theorem callExpr (callee : ExprId) (args : EntryRange) (span : Span) :
    compared.Holds (first.callExpr callee args span)
      (second.callExpr callee args span) := by
  apply compared.bind (hworkers _)
  intro function
  apply compared.bind (hworkers.entries args)
  intro args
  cases function with
  | function id => exact hworkers _
  | _ => exact compared.fail_self rfl

theorem exprKind (span : Span) (kind : ExprKind) :
    compared.Holds (first.exprKind span kind) (second.exprKind span kind) := by
  cases kind with
  | null | bool | int | float | str => exact compared.pure _
  | ident name => exact compared.lookup _
  | badge key => exact compared.lookup key
  | member receiver key =>
      exact compared.bind (hworkers _) fun value => compared.memberOf value key
  | index receiver key =>
      exact compared.bind (hworkers _) fun value =>
        compared.bind (hworkers _) fun _ =>
          compared.bind (compared.ofExcept _) fun key =>
            compared.memberOf value key
  | array range | args range =>
      exact compared.bind (hworkers.entries range) fun _ => compared.withHeap _
  | binary op left right => exact hworkers.binary op left right
  | unary op operand =>
      exact compared.bind (hworkers _) fun _ => compared.ofExcept _
  | compose left right =>
      exact compared.bind (hworkers _) fun one =>
        compared.bind (hworkers _) fun other =>
          compared.bind (compared.compose one other) fun result =>
            compared.ofExcept result
  | call callee args => exact hworkers.callExpr callee args span
  | assign target value =>
      exact compared.bind (hworkers _) fun value =>
        compared.bind (compared.bindKey target value) fun _ =>
          compared.pure value
  | func definition =>
      exact compared.bind compared.program fun _ =>
        compared.bind (compared.found _) fun func =>
          compared.newClosure func.name definition

theorem evalExpr (id : ExprId) :
    compared.Holds (first.evalExpr id) (second.evalExpr id) :=
  compared.bind compared.program fun _ =>
    compared.bind (compared.found _) fun expr =>
      compared.located (hworkers.exprKind expr.span expr.kind) expr.span

theorem branch (condition : ExprId) (thenBlock : Block)
    (elseBlock : Option Block) :
    compared.Holds (first.branch condition thenBlock elseBlock)
      (second.branch condition thenBlock elseBlock) := by
  apply compared.bind (hworkers _)
  intro value
  split
  · exact compared.bind compared.program fun _ =>
      compared.bind (compared.found _) fun _ => compared.fail_self rfl
  · exact hworkers.block thenBlock
  · cases elseBlock with
    | some block => exact hworkers.block block
    | none => exact compared.pure _

/-- A round may end in a `break` or a `continue`, which are the same on both
sides. -/
theorem rounds (key : Option String) (value : String) (body : Block)
    (entries : List (Key × Value)) :
    compared.Holds (first.rounds key value body entries)
      (second.rounds key value body entries) := by
  induction entries with
  | nil => exact compared.pure _
  | cons entry rest ih =>
      apply compared.bind (compared.ofExcept _)
      intro content
      refine compared.recover (hworkers.blockWith content body) (fun _ => ih)
        fun exit exit' halike => ?_
      dsimp only
      rw [compared.reason_eq halike]
      split
      · exact compared.pure _
      · exact ih
      · exact compared.fail halike

theorem loop (key : Option String) (value : String) (iterated : ExprId)
    (body : Block) :
    compared.Holds (first.loop key value iterated body)
      (second.loop key value iterated body) := by
  apply compared.bind (hworkers _)
  intro array
  cases array with
  | array chain =>
      exact compared.bind (compared.readHeap _) fun content =>
        hworkers.rounds key value body content.entries
  | _ =>
      exact compared.bind compared.program fun _ =>
        compared.bind (compared.found _) fun _ => compared.fail_self rfl

/-- The exits of the block are alike, so the same clause handles them. -/
theorem attempt (body : Block) (recovery : CatchClause) :
    compared.Holds (first.attempt body recovery)
      (second.attempt body recovery) := by
  refine compared.recover (hworkers.block body) compared.pure
    fun exit exit' halike => ?_
  apply compared.bind compared.program
  intro _
  apply compared.bind (compared.found _)
  intro kinds
  rw [compared.reason_eq halike]
  split
  · exact compared.fail halike
  · split
    · exact compared.bind (compared.recoveryBindings _ _) fun content =>
        hworkers.blockWith content recovery.body
    · exact compared.fail halike

/-- The release is called however the body ends. Each of the two ends of the
body is one case. -/
theorem releasing (release : Option FunctionId) (span : Span)
    {body : Run World Value} {body' : Run Shown Value}
    (hbody : compared.Holds body body') :
    compared.Holds (first.releasing release span body)
      (second.releasing release span body') := by
  cases release with
  | none => exact hbody
  | some id =>
      refine compared.recover hbody (fun value => ?_)
        fun exit exit' halike => ?_
      · exact compared.recover (hworkers _) (fun _ => compared.pure value)
          fun _ _ halike => compared.fail halike
      · exact compared.recover (hworkers _) (fun _ => compared.fail halike)
          fun _ _ _ => compared.fail halike

theorem resource (acquired : ExprId) (binding : Option String)
    (body : Block) (span : Span) :
    compared.Holds (first.resource acquired binding body span)
      (second.resource acquired binding body span) := by
  apply compared.bind (hworkers _)
  intro resource
  apply compared.bind (compared.hook? resource "enter")
  intro enter
  apply compared.bind (compared.hook? resource "release")
  intro release
  refine compared.bind ?_ fun bound =>
    hworkers.releasing release span (hworkers.blockWith _ body)
  cases enter with
  | some id => exact hworkers _
  | none => exact compared.pure resource

/-- The block runs in a new frame between its own frame and the scope. -/
theorem ownFrame (base : Chain) (body : Block) :
    compared.Holds (first.ownFrame base body) (second.ownFrame base body) := by
  apply compared.bind (compared.withHeap _)
  intro own
  apply compared.bind compared.env
  intro outer
  apply compared.bind (compared.withHeap _)
  intro scope
  exact compared.bind (compared.inChain (hworkers.stmts body.stmts) scope)
    fun _ => compared.pure own

theorem inherit (name parent : String) (body : Block) :
    compared.Holds (first.inherit name parent body)
      (second.inherit name parent body) := by
  apply compared.bind (compared.lookup _)
  intro value
  cases value with
  | array base =>
      exact compared.bind (hworkers.ownFrame base body) fun _ =>
        compared.bind (compared.withHeap _) fun chain =>
          compared.bound name (.array chain)
  | _ => exact compared.fail_self rfl

/-- Only some statements take a value from a part that runs before them. -/
theorem operand (kind : StmtKind) :
    compared.Holds (first.operand kind) (second.operand kind) := by
  cases kind with
  | assignBlock name body => exact hworkers.block body
  | «return» value | raise value => exact hworkers.optional value
  | _ => exact compared.pure _

theorem stmtKind (span : Span) (operand : Value) (kind : StmtKind) :
    compared.Holds (first.stmtKind span operand kind)
      (second.stmtKind span operand kind) := by
  cases kind with
  | expr value => exact hworkers _
  | branch condition thenBlock elseBlock =>
      exact hworkers.branch condition thenBlock elseBlock
  | scope body => exact hworkers.block body
  | loop key value iterated body =>
      exact hworkers.loop key value iterated body
  | attempt body recovery => exact hworkers.attempt body recovery
  | resource acquired binding body =>
      exact hworkers.resource acquired binding body span
  | assignBlock name body => exact compared.bound name operand
  | funcBlock name definition =>
      exact compared.bind (compared.newClosure name definition) fun value =>
        compared.bound name value
  | inheritBlock name parent body => exact hworkers.inherit name parent body
  | «return» value => exact compared.fail_self rfl
  | «break» => exact compared.fail_self rfl
  | «continue» => exact compared.fail_self rfl
  | raise value =>
      exact compared.bind (compared.textOf operand)
        fun _ => compared.fail_self rfl

theorem evalStmt (id : StmtId) :
    compared.Holds (first.evalStmt id) (second.evalStmt id) :=
  compared.bind compared.program fun _ =>
    compared.bind (compared.found _) fun stmt =>
      compared.bind (hworkers.operand stmt.kind) fun operand =>
        compared.located (hworkers.stmtKind stmt.span operand stmt.kind)
          stmt.span

theorem defaults (unbound : List (String × ExprId)) :
    compared.Holds (first.defaults unbound) (second.defaults unbound) := by
  induction unbound with
  | nil => exact compared.pure ()
  | cons entry rest ih =>
      exact compared.bind (hworkers _) fun value =>
        compared.bind (compared.bindKey _ value) fun _ => ih

/-- A body runs in the program and the scope that its function was made in. -/
theorem runBody (number : Nat) (func : FuncDef) (captured : Chain)
    (content : Container Value) (unbound : List (String × ExprId)) :
    compared.Holds (first.runBody number func captured content unbound)
      (second.runBody number func captured content unbound) := by
  apply compared.bind (compared.withHeap _)
  intro scope
  refine compared.inProgram (compared.inChain ?_ scope) number
  exact compared.bind (hworkers.defaults unbound) fun _ =>
    compared.catchReturn (hworkers.stmts func.body.stmts)

theorem callScript (name : String) (number : Nat) (definition : FuncId)
    (captured : Chain) (args : Container Value) :
    compared.Holds (first.callScript name number definition captured args)
      (second.callScript name number definition captured args) := by
  apply compared.bind (compared.programAt number)
  intro row
  apply compared.bind (compared.found row)
  intro program
  apply compared.bind (compared.found _)
  intro func
  apply compared.bind (compared.found _)
  intro params
  apply compared.bind (compared.ofExcept _)
  intro bindings
  exact compared.bind (compared.callFrame _ _) fun content =>
    hworkers.runBody number func captured content bindings.defaults

end Workers

end Workers

end Comparison

end ChainScript
