import ChainScript.Proofs.NativeCalls

/-
Calls are lexically scoped.

A call looks at the function, the arguments and the active calls.  A body runs
in the program that it is part of and in the scope that the function captured,
whatever the program and the scope of the caller, and a function of the host is
given neither.  So a call takes no notice of where it is made.
-/

namespace ChainScript

open Step

variable {World α β : Type}

/-- The machine while code of another program runs in another scope. -/
def Machine.elsewhere (number : Nat) (env : Chain) (machine : Machine World) :
    Machine World :=
  { machine with program := number, env }

namespace Run

/-- A computation that does the same in all programs and scopes, and stays
where it is. -/
def Unplaced (body : Run World α) : Prop :=
  ∀ number env machine, body (machine.elsewhere number env) =
    ((body machine).1, (body machine).2.elsewhere number env)

theorem unplaced_ofOutcome (outcome : Outcome Exit α) :
    Unplaced (Step.ofOutcome outcome : Run World α) :=
  fun _ _ _ => rfl

theorem unplaced_pure (value : α) : Unplaced (pure value : Run World α) :=
  unplaced_ofOutcome (.ok value)

theorem unplaced_found (row : Option α) :
    Unplaced (Step.found row : Run World α) :=
  unplaced_ofOutcome _

theorem unplaced_ofExcept (result : Except Cause α) :
    Unplaced (ofExcept result : Run World α) := by
  cases result with
  | ok value => exact unplaced_pure value
  | error cause => exact unplaced_ofOutcome (.error _)

theorem unplaced_withHeap (f : Heap → α × Heap) :
    Unplaced (withHeap f : Run World α) :=
  fun _ _ _ => rfl

theorem Unplaced.bind {first : Run World α} {next : α → Run World β}
    (hfirst : first.Unplaced) (hnext : ∀ value, (next value).Unplaced) :
    Unplaced (first >>= next) := by
  intro number env machine
  rw [bind_apply, bind_apply, hfirst number env machine]
  rcases first machine with ⟨outcome, after⟩
  cases outcome with
  | ok value => exact hnext value number env after
  | _ => rfl

theorem Unplaced.noting {body : Run World α} (hbody : body.Unplaced) :
    Unplaced (noting body) := by
  intro number env machine
  unfold Run.noting
  rw [hbody number env machine]
  rcases body machine with ⟨outcome, after⟩
  cases outcome <;> rfl

theorem Unplaced.inCall {body : Run World α} (hbody : body.Unplaced)
    (call : ActiveCall) : Unplaced (inCall call body) := by
  intro number env machine
  cases hpush : machine.calls.push call with
  | error cause =>
      have hplaced : (machine.elsewhere number env).calls.push call =
        .error cause := hpush
      rw [inCall_of_error hpush, inCall_of_error hplaced]
  | ok calls =>
      have hplaced : (machine.elsewhere number env).calls.push call =
        .ok calls := hpush
      rw [inCall_of_ok hpush, inCall_of_ok hplaced]
      have hnoted := hbody.noting number env { machine with calls }
      simp only [Machine.elsewhere] at hnoted ⊢
      rw [hnoted]

/-- A body that is given its program and its scope asks for no others. -/
theorem unplaced_inScope (number : Nat) (scope : Chain) (body : Run World α) :
    Unplaced (inProgram number (inChain scope body)) :=
  fun _ _ _ => rfl

/-- A function of the host is given neither a program nor a scope. -/
theorem unplaced_askHost (natives : Natives World) (name : String)
    (args : Container Value) : Unplaced (askHost natives name args) := by
  intro number env machine
  let reply := natives.reply name args machine.heap machine.world
  have hheap : (machine.elsewhere number env).heap = machine.heap := rfl
  change carryOut reply (machine.elsewhere number env) =
    ((carryOut reply machine).1, (carryOut reply machine).2.elsewhere _ _)
  rw [carryOut_eq_of_heap_eq reply hheap, snd_carryOut reply machine]
  rfl

end Run

namespace Worker

open Run

variable (worker : Worker World)

theorem unplaced_callFrame (content : Container Value)
    (supplied : List (String × Supplied)) :
    Unplaced (callFrame content supplied : Run World (Container Value)) := by
  induction supplied generalizing content with
  | nil => exact unplaced_pure content
  | cons entry rest ih =>
      obtain ⟨name, value | entries⟩ := entry
      · exact ih _
      · exact (unplaced_withHeap _).bind fun value => ih _

theorem unplaced_runBody (number : Nat) (func : FuncDef) (captured : Chain)
    (content : Container Value) (unbound : List (String × ExprId)) :
    Unplaced (worker.runBody number func captured content unbound) :=
  (unplaced_withHeap _).bind fun scope => unplaced_inScope number scope _

theorem unplaced_callScript (name : String) (number : Nat)
    (definition : FuncId) (captured : Chain) (args : Container Value) :
    Unplaced (worker.callScript name number definition captured args) := by
  have hrow : Unplaced (Step.read fun machine : Machine World =>
    machine.programs[number]?) := fun _ _ _ => rfl
  apply hrow.bind
  intro row
  apply (unplaced_found row).bind
  intro program
  apply (unplaced_found _).bind
  intro func
  apply (unplaced_found _).bind
  intro params
  apply (unplaced_ofExcept _).bind
  intro bindings
  apply (unplaced_callFrame _ _).bind
  intro content
  exact worker.unplaced_runBody number func captured content bindings.defaults

theorem unplaced_evalCall (natives : Natives World) (id : FunctionId)
    (args : Container Value) (site : Option Span) :
    Unplaced (worker.evalCall natives id args site) := by
  have hrow : Unplaced (readHeap fun heap => heap.function? id :
    Run World (Option Function)) := fun _ _ _ => rfl
  apply hrow.bind
  intro row
  apply (unplaced_found row).bind
  intro function
  apply Unplaced.inCall
  split
  · exact unplaced_askHost natives function.name _
  · exact worker.unplaced_callScript function.name _ _ _ _

end Worker

/-- A call, with what happens in the course of it: the moments at which code of
the body and of all that it calls begins and ends, each with its program and
its scope, and the calls that reach the host. -/
def observedCall (natives : Natives World) (depth : Nat) (id : FunctionId)
    (args : Container Value) (site : Option Span) :
    Run (Watched (Logged World)) Value :=
  perform natives.logged.watched (watch natives.logged depth)
    (.call id args site)

/-- A call that is observed does what the call itself does. -/
theorem observedCall_mapWorld (natives : Natives World) (depth : Nat)
    (id : FunctionId) (args : Container Value) (site : Option Span)
    (machine : Machine (Watched (Logged World))) :
    evaluate natives (depth + 1) (.call id args site)
        (machine.mapWorld Watched.plain) =
      let result := observedCall natives depth id args site machine
      (result.1, result.2.mapWorld Watched.plain) := by
  have hwatched := (perform_agree natives.logged.shownAs_watched
    (watch_agree natives.logged depth) (.call id args site)).shown machine
  have hlogged := (perform_agree natives.shownAs_logged
    (evaluate_agree natives.shownAs_logged depth) (.call id args site)).shown
      (machine.mapWorld Watched.world)
  rw [hwatched] at hlogged
  exact hlogged

/-- A call has the same outcome, asks the host for the same, leaves the same
frames, and goes through the same moments in between, from wherever it is made:
what the caller can see makes no difference to it.  And the caller is where it
was when the call ends. -/
theorem calls_lexically_scoped (natives : Natives World) (depth : Nat)
    (id : FunctionId) (args : Container Value) (site : Option Span)
    (machine : Machine (Watched (Logged World))) (number : Nat) (env : Chain) :
    let call := observedCall natives depth id args site
    evaluate natives (depth + 1) (.call id args site)
        (machine.mapWorld Watched.plain) =
        ((call machine).1, (call machine).2.mapWorld Watched.plain) ∧
      call (machine.elsewhere number env) =
        ((call machine).1, (call machine).2.elsewhere number env) := by
  intro call
  refine ⟨observedCall_mapWorld natives depth id args site machine, ?_⟩
  exact Worker.unplaced_evalCall _ natives.logged.watched id args site number
    env machine

end ChainScript
