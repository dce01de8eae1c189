import ChainScript.Proofs.StartedCalls

/-
Resources are released exactly once.

However the body of a `with` statement ends, the release hook starts once
between the end of the body and the end of the statement, and whatever else
starts there does so within the hook.  It takes room for one more call.  A body
that is entered while the call stack is full leaves without its release: the
call of the hook is refused, just as any other call would be.
-/

namespace ChainScript

open Step Machine

variable {World α : Type}

/-- The function that an array has under a label. -/
def Heap.hook? (heap : Heap) (chain : Chain) (label : String) :
    Option FunctionId :=
  match heap.lookup? chain (.badge label) with
  | some (.function id) => some id
  | _ => none

/-- The arguments of a call, after those that are bound already, fit the
parameters of the function.  A function of the host takes all arguments. -/
def Machine.Fits (machine : Machine World) (id : FunctionId)
    (args : Container Value) : Prop :=
  ∀ name number definition captured bound,
    machine.heap.function? id =
        some ⟨name, .script number definition captured, bound⟩ →
      ∀ program func params, machine.programs[number]? = some program →
        program.func? definition = some func →
        program.params? func.params = some params →
        ∃ bindings, bindArguments (functionLabel name) params
          (bound.expand args.entries) = .ok bindings

theorem Machine.fits_of_native {machine : Machine World} {id : FunctionId}
    {args : Container Value} (name : String) (bound : Container Value)
    (hnative :
      machine.heap.function? id = some ⟨name, .native, bound⟩) :
    machine.Fits id args := by
  intro other number definition captured otherBound hscript
  rw [hnative] at hscript
  cases hscript

namespace Traced

/-- A function has started and ended, and whatever else has started did so
within it. -/
def Ran (id : FunctionId) (before after : Traced World) : Prop :=
  ∃ inner,
    after.started = inner ++ ⟨id, before.level + 1⟩ :: before.started ∧
      ∀ start ∈ inner, before.level + 1 < start.level

end Traced

/-- An answered computation that goes on after an attempt does so however the
attempt ends. -/
theorem Step.attempt_ends {σ ε β : Type} {first : Step σ ε α}
    {next : Except ε α → Step σ ε β} {state : σ}
    (hanswered : ((Step.attempt first >>= next) state).1.Answered) :
    (first state).1.Answered ∧
      ∃ result, (Step.attempt first >>= next) state =
        next result (first state).2 := by
  rw [bind_apply] at hanswered ⊢
  unfold Step.attempt at hanswered ⊢
  rcases hfirst : first state with ⟨outcome, after⟩
  rw [hfirst] at hanswered
  cases outcome with
  | ok value => exact ⟨trivial, .ok value, rfl⟩
  | error failure => exact ⟨trivial, .error failure, rfl⟩
  | halted reason => exact hanswered.elim

namespace Run

/-- A function runs in a computation.  Otherwise the host stays as it is, and
there is no answer unless something is amiss. -/
def RunsUnless (amiss : Prop) (id : FunctionId)
    (body : Run (Traced World) α) (machine : Machine (Traced World)) : Prop :=
  machine.world.Ran id (body machine).2.world ∨
    (body machine).2.world = machine.world ∧
      ((body machine).1.Answered → amiss)

variable {amiss : Prop} {id : FunctionId} {machine : Machine (Traced World)}
  {β : Type}

theorem runsUnless_found {row : Option β} {next : β → Run (Traced World) α}
    (hnext : ∀ value, row = some value →
      RunsUnless amiss id (next value) machine) :
    RunsUnless amiss id (Step.found row >>= next) machine := by
  cases row with
  | none => exact .inr ⟨rfl, False.elim⟩
  | some value => exact hnext value rfl

theorem runsUnless_ofExcept {result : Except Cause β}
    {next : β → Run (Traced World) α}
    (herror : ∀ cause, result = .error cause → amiss)
    (hnext : ∀ value, result = .ok value →
      RunsUnless amiss id (next value) machine) :
    RunsUnless amiss id (Run.ofExcept result >>= next) machine := by
  cases result with
  | error cause => exact .inr ⟨rfl, fun _ => herror cause rfl⟩
  | ok value => exact hnext value rfl

/-- A computation after one that always ends and leaves the host and the scope
as they are. -/
theorem RunsUnless.after {first : Run (Traced World) β}
    {next : β → Run (Traced World) α} {value : β}
    {after : Machine (Traced World)}
    (hnext : RunsUnless amiss id (next value) after)
    (hfirst : first machine = (.ok value, after))
    (hworld : after.world = machine.world) :
    RunsUnless amiss id (first >>= next) machine := by
  unfold RunsUnless
  rw [bind_apply, hfirst, ← hworld]
  exact hnext

theorem runsUnless_starting {body : Run (Traced World) α}
    (hbody : Moves (Shielded Traced.Within) body)
    (hscope : machine.env ≠ []) :
    RunsUnless amiss id (starting id body) machine :=
  .inl (started_starting hbody id hscope)

theorem answered_noting {body : Run World α} {machine : Machine World}
    (hanswered : (noting body machine).1.Answered) :
    (body machine).1.Answered := by
  unfold noting at hanswered
  rcases hbody : body machine with ⟨outcome, after⟩
  rw [hbody] at hanswered
  cases outcome with
  | halted reason => exact hanswered
  | _ => trivial

theorem runsUnless_inCall {call : ActiveCall} {body : Run (Traced World) α}
    (hfull : machine.calls.limit ≤ machine.calls.depth → amiss)
    (hbody : ∀ calls, RunsUnless amiss id body { machine with calls }) :
    RunsUnless amiss id (inCall call body) machine := by
  unfold RunsUnless
  rcases Nat.lt_or_ge machine.calls.depth machine.calls.limit with hroom | hle
  · rw [inCall_of_ok (CallStack.push_of_lt call hroom)]
    simp only [snd_noting]
    refine (hbody _).imp_right (And.imp_right fun hamiss hanswered => ?_)
    exact hamiss (answered_noting hanswered)
  · rw [inCall_of_error (CallStack.push_of_le call hle)]
    exact .inr ⟨rfl, fun _ => hfull hle⟩

end Run

namespace Worker

/-- The frame of a call can always be made, and the host has no part in it. -/
theorem callFrame_ends (content : Container Value)
    (supplied : List (String × Supplied)) (machine : Machine World) :
    ∃ filled after,
      callFrame content supplied machine = (.ok filled, after) ∧
        after.world = machine.world ∧ after.env = machine.env := by
  induction supplied generalizing content machine with
  | nil => exact ⟨content, machine, rfl, rfl, rfl⟩
  | cons entry rest ih =>
      obtain ⟨name, value | entries⟩ := entry
      · exact ih _ machine
      · obtain ⟨filled, after, hends, hworld, henv⟩ :=
          ih (content.set (.badge name)
            (machine.heap.addArray entries).1)
            { machine with heap := (machine.heap.addArray entries).2 }
        exact ⟨filled, after, hends, hworld, henv⟩

section Hooks

variable {worker : Worker (Traced World)}
  {machine : Machine (Traced World)}
  (hworker : worker.Isolating Traced.Within) (hscope : machine.env ≠ [])

include hworker hscope

/-- A function of a program runs, unless its arguments do not fit. -/
theorem runsUnless_tracedScript {amiss : Prop} {id : FunctionId}
    {name : String} {number : Nat} {definition : FuncId} {captured : Chain}
    {args : Container Value}
    (hunfit : ∀ program func params cause,
      machine.programs[number]? = some program →
        program.func? definition = some func →
        program.params? func.params = some params →
        bindArguments (functionLabel name) params args = .error cause →
        amiss) :
    Run.RunsUnless amiss id
      (worker.tracedScript id name number definition captured args)
      machine := by
  apply Run.runsUnless_found
  intro program hprogram
  apply Run.runsUnless_found
  intro func hfunc
  apply Run.runsUnless_found
  intro params hparams
  apply Run.runsUnless_ofExcept
  · exact fun cause => hunfit program func params cause hprogram hfunc hparams
  · intro bindings _
    obtain ⟨filled, after, hends, hworld, henv⟩ :=
      callFrame_ends .empty bindings.supplied machine
    have hbody := moves_runBody hworker number func captured filled
      bindings.defaults
    refine Run.RunsUnless.after ?_ hends hworld
    exact Run.runsUnless_starting hbody (henv ▸ hscope)

/-- A function runs when it is called, unless there is no room for the call or
its arguments do not fit. -/
theorem runsUnless_tracedCall (natives : Natives World) (id : FunctionId)
    (args : Container Value) (site : Option Span) :
    Run.RunsUnless
      (machine.calls.limit ≤ machine.calls.depth ∨ ¬ machine.Fits id args) id
      (worker.tracedCall natives id args site) machine := by
  apply Run.runsUnless_found
  intro function hfunction
  apply Run.runsUnless_inCall .inl
  intro calls
  obtain ⟨name, body, bound⟩ := function
  cases body with
  | native =>
      exact Run.runsUnless_starting
        (Run.moves_askHost natives.along_traced name _) hscope
  | script number definition captured =>
      refine runsUnless_tracedScript hworker (by exact hscope) ?_
      intro program func params cause hprogram hfunc hparams herror
      refine .inr fun hfits => ?_
      obtain ⟨bindings, hok⟩ := hfits name number definition captured bound
        hfunction program func params hprogram hfunc hparams
      rw [herror] at hok
      cases hok

end Hooks

end Worker

theorem runsUnless_trace (natives : Natives World) (depth : Nat)
    {machine : Machine (Traced World)} (hscope : machine.env ≠ [])
    (id : FunctionId) (args : Container Value) (site : Option Span) :
    Run.RunsUnless
      (machine.calls.limit ≤ machine.calls.depth ∨ ¬ machine.Fits id args) id
      (trace natives depth (.call id args site)) machine := by
  cases depth with
  | zero => exact .inr ⟨rfl, False.elim⟩
  | succ depth =>
      exact Worker.runsUnless_tracedCall (trace_isolating natives depth) hscope
        natives id args site

/-- A call that finds no room is refused before anything starts. -/
theorem started_trace_of_full (natives : Natives World) (depth : Nat)
    {machine : Machine (Traced World)}
    (hfull : machine.calls.limit ≤ machine.calls.depth)
    (id : FunctionId) (args : Container Value) (site : Option Span) :
    (trace natives depth (.call id args site) machine).2 = machine := by
  cases depth with
  | zero => rfl
  | succ depth =>
      change ((Step.found (machine.heap.function? id) >>= fun function =>
        Run.inCall ⟨function.name, site⟩ _) machine).2 = machine
      cases machine.heap.function? id with
      | none => rfl
      | some function =>
          change (Run.inCall ⟨function.name, site⟩ _ machine).2 = machine
          rw [Run.inCall_of_error (CallStack.push_of_le _ hfull)]

namespace Worker

variable {worker : Worker World}

theorem hook?_apply (chain : Chain) (label : String)
    (machine : Machine World) :
    hook? (.array chain) label machine =
      (.ok (machine.heap.hook? chain label), machine) := by
  simp only [hook?, bind_apply, Run.readHeap, read_apply, Heap.hook?]
  cases machine.heap.lookup? chain (.badge label) with
  | none => rfl
  | some value => cases value <;> rfl

theorem moves_entering {rel : World → World → Prop} [IsPreorder World rel]
    (hworker : worker.Isolating rel) (enter : Option FunctionId) (span : Span)
    (resource : Value) :
    Moves (Shielded rel) (worker.entering enter span resource) := by
  cases enter with
  | none => exact (still_pure resource).moves
  | some id => exact hworker.call id .empty (some span)

section Resource

variable {acquired : ExprId} {span : Span} {machine ready entered : Machine World}
  {chain : Chain} (binding : Option String) (body : Block)
  (hacquired : worker.expr acquired machine = (.ok (.array chain), ready))

include hacquired

/-- What a statement that uses a resource does once the resource is there. -/
theorem resource_apply (span : Span) :
    worker.resource acquired binding body span machine =
      (worker.entering (ready.heap.hook? chain "enter") span (.array chain) >>=
        fun bound =>
          worker.releasing (ready.heap.hook? chain "release") span
            (worker.blockWith (resourceBindings binding bound) body))
        ready := by
  unfold resource
  rw [bind_apply, hacquired]
  dsimp only
  rw [bind_apply, hook?_apply]
  dsimp only
  rw [bind_apply, hook?_apply]

theorem resource_of_entering_error {exit : Exit}
    (hentering : worker.entering (ready.heap.hook? chain "enter") span
      (.array chain) ready = (.error exit, entered)) :
    worker.resource acquired binding body span machine =
      (.error exit, entered) := by
  rw [resource_apply binding body hacquired, bind_apply, hentering]

theorem resource_of_entered {bound : Value}
    (hentering : worker.entering (ready.heap.hook? chain "enter") span
      (.array chain) ready = (.ok bound, entered)) :
    worker.resource acquired binding body span machine =
      worker.releasing (ready.heap.hook? chain "release") span
        (worker.blockWith (resourceBindings binding bound) body) entered := by
  rw [resource_apply binding body hacquired, bind_apply, hentering]

end Resource

/-- The call of a release hook comes last, however the body ends. -/
theorem releasing_ends {id : FunctionId} {span : Span}
    {body : Run World Value} {machine : Machine World}
    (hanswered :
      (worker.releasing (some id) span body machine).1.Answered) :
    let released :=
      worker (.call id .empty (some span)) (body machine).2
    (worker.releasing (some id) span body machine).2 = released.2 ∧
      released.1.Answered := by
  simp only [releasing] at hanswered ⊢
  obtain ⟨-, result, hbody⟩ := Step.attempt_ends hanswered
  rw [hbody] at hanswered ⊢
  obtain ⟨hreleased, released, hcall⟩ := Step.attempt_ends hanswered
  rw [hcall]
  refine ⟨?_, hreleased⟩
  split <;> rfl

end Worker

section Hooks

variable (natives : Natives World) (depth : Nat)
  {machine : Machine (Traced World)} (hscope : machine.env ≠ [])

include hscope

/-- An enter hook starts once, or it is refused. -/
theorem started_entering (enter : Option FunctionId) (span : Span)
    (resource : Value) :
    let entered :=
      ((trace natives depth).entering enter span resource machine).2
    entered.world.started = machine.world.started ∨
      ∃ hook, enter = some hook ∧ machine.world.Ran hook entered.world := by
  cases enter with
  | none => exact .inl rfl
  | some hook =>
      rcases runsUnless_trace natives depth hscope hook .empty (some span) with
        hran | ⟨hsame, -⟩
      · exact .inr ⟨hook, rfl, hran⟩
      · exact .inl (congrArg Traced.started hsame)

/-- A release hook starts once after the body, if its arguments fit and there is
room for its call.  It does not start while the call stack is full. -/
theorem started_releasing {release : FunctionId} {span : Span}
    {body : Run (Traced World) Value} (hbody : Moves (Shielded Traced.Within) body)
    (hanswered : ((trace natives depth).releasing (some release) span body
      machine).1.Answered) :
    let ended := (body machine).2
    let after := ((trace natives depth).releasing (some release) span body
      machine).2
    (machine.calls.depth < machine.calls.limit →
        ended.Fits release .empty → ended.world.Ran release after.world) ∧
      (machine.calls.limit ≤ machine.calls.depth →
        after.world.started = ended.world.started) := by
  intro ended after
  obtain ⟨hafter, hreleased⟩ := Worker.releasing_ends hanswered
  have hkept := hbody machine hscope
  have hcalls : ended.calls = machine.calls := hkept.restored.calls
  have hscope' : ended.env ≠ [] := hkept.restored.env ▸ hscope
  have hruns :=
    runsUnless_trace natives depth hscope' release .empty (some span)
  refine ⟨fun hroom hfits => ?_, fun hfull => ?_⟩
  · rcases hruns with hran | ⟨-, hamiss⟩
    · exact (congrArg Machine.world hafter) ▸ hran
    · rcases hamiss hreleased with hfull | hunfit
      · rw [hcalls] at hfull
        exact absurd hroom (Nat.not_lt.mpr hfull)
      · exact absurd hfits hunfit
  · have hrefused := started_trace_of_full natives depth
      (hcalls ▸ hfull) release .empty (some span)
    exact congrArg (fun machine => machine.world.started)
      (hafter.trans hrefused)

end Hooks

theorem Run.answered_located {span : Span} {body : Run World α}
    {machine : Machine World}
    (hanswered : (located span body machine).1.Answered) :
    (body machine).1.Answered := by
  unfold located mapError at hanswered
  rcases hbody : body machine with ⟨outcome, after⟩
  rw [hbody] at hanswered
  cases outcome with
  | halted reason => exact hanswered
  | _ => trivial

/-- Resources are released exactly once.  When the enter hook of a resource
faults, the statement ends there, and at most that hook has started.  When the
body has been entered, then however it ends, the release hook starts once more
before the statement ends, and whatever else starts does so within it; this
takes arguments that fit and room for one more call.  While the call stack is
full, nothing starts after the body. -/
theorem resources_released_once (natives : Natives World) (depth : Nat)
    {machine ready : Machine (Traced World)} (hscope : machine.env ≠ [])
    {id : StmtId} {program : Program} {acquired : ExprId}
    {binding : Option String} {body : Block} {span : Span}
    (hprogram : machine.programs[machine.program]? = some program)
    (hstmt :
      program.stmt? id = some ⟨.resource acquired binding body, span⟩)
    {chain : Chain}
    (hacquired : trace natives depth (.expr acquired) machine =
      (.ok (.array chain), ready))
    {release : FunctionId}
    (hrelease : ready.heap.hook? chain "release" = some release) :
    let worker := trace natives depth
    let result := trace natives (depth + 1) (.stmt id) machine
    let enter := ready.heap.hook? chain "enter"
    let entering := worker.entering enter span (.array chain) ready
    evaluate natives (depth + 1) (.stmt id) (machine.mapWorld Traced.world) =
        (result.1, result.2.mapWorld Traced.world) ∧
      (∀ exit, entering.1 = .error exit →
        result = (.error (exit.orSpan span), entering.2) ∧
          (entering.2.world.started = ready.world.started ∨
            ∃ hook, enter = some hook ∧
              ready.world.Ran hook entering.2.world)) ∧
      ∀ bound, entering.1 = .ok bound → result.1.Answered →
        let ended := worker.blockWith (Worker.resourceBindings binding bound)
          body entering.2
        machine.world.Within ended.2.world ∧
          (machine.calls.depth < machine.calls.limit →
            ended.2.Fits release .empty →
            ended.2.world.Ran release result.2.world) ∧
          (machine.calls.limit ≤ machine.calls.depth →
            result.2.world.started = ended.2.world.started) := by
  intro worker result enter entering
  have hworker : worker.Isolating Traced.Within :=
    trace_isolating natives depth
  have hready : Kept Traced.Within _ machine (worker.expr acquired machine).2 :=
    hworker.expr acquired machine hscope
  rw [show worker.expr acquired machine = _ from hacquired] at hready
  have hscope' : ready.env ≠ [] := hready.restored.env ▸ hscope
  have hresult : result = Run.located span
      (worker.resource acquired binding body span) machine :=
    Worker.evalStmt_apply hprogram hstmt
  refine ⟨trace_mapWorld natives (depth + 1) (.stmt id) machine, ?_, ?_⟩
  · intro exit herror
    have hresource := Worker.resource_of_entering_error binding body hacquired
      (Prod.ext herror rfl)
    refine ⟨?_, started_entering natives depth hscope' enter span _⟩
    rw [hresult]
    unfold Run.located mapError
    rw [hresource]
  · intro bound hbound hanswered ended
    have hentered := Worker.moves_entering hworker enter span (.array chain)
      ready hscope'
    have hbody := Worker.moves_blockWith hworker
      (Worker.resourceBindings binding bound) body
    have hscope'' : entering.2.env ≠ [] := hentered.restored.env ▸ hscope'
    have hcalls : entering.2.calls = machine.calls :=
      hentered.restored.calls.trans hready.restored.calls
    have hresource := Worker.resource_of_entered binding body hacquired
      (Prod.ext hbound rfl)
    rw [hrelease] at hresource
    have hafter : result.2 = (worker.releasing (some release) span
        (worker.blockWith (Worker.resourceBindings binding bound) body)
        entering.2).2 := by
      rw [hresult, Run.located, mapError_snd, hresource]
    rw [hresult] at hanswered
    have hreleasing := started_releasing natives depth hscope'' hbody
      (hresource ▸ Run.answered_located hanswered)
    rw [hcalls] at hreleasing
    refine ⟨?_, ?_, ?_⟩
    · exact Trans.trans hready.world
        (Trans.trans hentered.world (hbody _ hscope'').world)
    · exact hafter ▸ hreleasing.1
    · exact hafter ▸ hreleasing.2

/-- The program `with [release: record] { return 1 }`. -/
def releasingProgram : Program where
  number := 0
  exprs := #[⟨.ident "record", .origin⟩, ⟨.array ⟨0, 0, 1⟩, .origin⟩,
    ⟨.int 1, .origin⟩]
  entries := #[⟨.keyed (.badge "release") ⟨0, 0⟩, .origin⟩]
  stmts := #[⟨.return (some ⟨0, 2⟩), .origin⟩,
    ⟨.resource ⟨0, 1⟩ none ⟨⟨0, 0, 1⟩, .origin⟩, .origin⟩]
  stmtLists := #[⟨0, 0⟩]

/-- A machine about to run this program with a limit for its calls. -/
def releasingMachine (limit : Nat) : Machine (Traced Unit) :=
  .start (Heap.empty.addFunction ⟨"record", .native, .empty⟩).2
    #[releasingProgram] 0 (.ofPairs [(.badge "record", .function 0)]) limit
    ⟨(), 0, []⟩

theorem resources_released_once_returning :
    ∃ ended : Traced Unit, ended.started = [] ∧
      ended.Ran 0 (trace Host.silent.natives (2 + 1) (.stmt ⟨0, 1⟩)
        (releasingMachine 1)).2.world := by
  have hscope : (releasingMachine 1).env ≠ [] := by decide
  have hprogram : (releasingMachine 1).programs[0]? = some releasingProgram :=
    rfl
  have hstmt : releasingProgram.stmt? ⟨0, 1⟩ =
      some ⟨.resource ⟨0, 1⟩ none ⟨⟨0, 0, 1⟩, .origin⟩, .origin⟩ := rfl
  have hacquired :
      trace Host.silent.natives 2 (.expr ⟨0, 1⟩) (releasingMachine 1) =
        (.ok (.array [⟨1, 1⟩]), (trace Host.silent.natives 2 (.expr ⟨0, 1⟩)
          (releasingMachine 1)).2) := rfl
  have hrelease : (trace Host.silent.natives 2 (.expr ⟨0, 1⟩)
      (releasingMachine 1)).2.heap.hook? [⟨1, 1⟩] "release" = some 0 := rfl
  have hanswered : (trace Host.silent.natives (2 + 1) (.stmt ⟨0, 1⟩)
      (releasingMachine 1)).1.Answered := by
    obtain ⟨exit, hends⟩ : ∃ exit, (trace Host.silent.natives (2 + 1)
        (.stmt ⟨0, 1⟩) (releasingMachine 1)).1 = .error exit := ⟨_, rfl⟩
    rw [hends]
    trivial
  obtain ⟨-, -, hreleased⟩ := resources_released_once Host.silent.natives 2
    hscope hprogram hstmt hacquired hrelease
  refine ⟨_, ?_, (hreleased (.array [⟨1, 1⟩]) ?_ hanswered).2.1 (by decide)
    (Machine.fits_of_native "record" .empty ?_)⟩ <;> decide +kernel

/-- With no room for a call the body is entered and returns, and its resource is
not released at all. -/
theorem release_refused_when_full :
    let result :=
      trace Host.silent.natives 3 (.stmt ⟨0, 1⟩) (releasingMachine 0)
    ∃ exit, result.1 = .error exit ∧
      exit.reason = .signal (.return (.int 1)) ∧
      result.2.world.started = [] :=
  ⟨_, rfl, rfl, rfl⟩

end ChainScript
