import ChainScript.Proofs.Comparison

/-
Two evaluations that agree.

The second one runs on a machine whose host shows less, or with workers that
may go deeper.  It does what the first one does, unless the first one gave up
for a reason that the second one need not have.
-/

namespace ChainScript

open Step

variable {World Shown α β : Type}

/-- The machine with another state of the host. -/
def Machine.mapWorld (view : World → Shown) (machine : Machine World) :
    Machine Shown where
  heap := machine.heap
  programs := machine.programs
  program := machine.program
  env := machine.env
  calls := machine.calls
  world := view machine.world

/-- The same reply of a host that shows less. -/
def Reply.map (view : World → Shown) : Reply World → Reply Shown
  | .answer result world => .answer result (view world)
  | .array content next => .array content fun value => (next value).map view
  | .compose left right next =>
      .compose left right fun result => (next result).map view
  | .native name next => .native name fun value => (next value).map view

theorem Reply.map_id (reply : Reply World) :
    reply.map (fun world => world) = reply := by
  induction reply with
  | answer result world => rfl
  | array content next ih => simp only [map, ih]
  | compose left right next ih => simp only [map, ih]
  | native name next ih => simp only [map, ih]

theorem Reply.map_map {Other : Type} (view : World → Shown)
    (again : Shown → Other) (reply : Reply World) :
    (reply.map view).map again = reply.map fun world => again (view world) := by
  induction reply with
  | answer result world => rfl
  | array content next ih => simp only [map, ih]
  | compose left right next ih => simp only [map, ih]
  | native name next ih => simp only [map, ih]

/-- Both hosts reply alike, up to what is shown of the first one. -/
def Natives.ShownAs (natives : Natives World) (view : World → Shown)
    (shown : Natives Shown) : Prop :=
  ∀ name args heap world, shown.reply name args heap (view world) =
    (natives.reply name args heap world).map view

theorem Natives.shownAs_self (natives : Natives World) :
    natives.ShownAs (fun world => world) natives :=
  fun _ _ _ _ => (Reply.map_id _).symm

namespace Run

/-- On the shown machine, the second computation ends as the first one does,
unless that one gives up for a loose reason. -/
def Agrees (view : World → Shown) (loose : Halt → Prop)
    (first : Run World α) (second : Run Shown α) : Prop :=
  ∀ machine, (∃ reason, loose reason ∧ (first machine).1 = .halted reason) ∨
    second (machine.mapWorld view) =
      ((first machine).1, (first machine).2.mapWorld view)

variable {view : World → Shown} {loose : Halt → Prop}

theorem agrees_ofOutcome (outcome : Outcome Exit α) :
    Agrees view loose (Step.ofOutcome outcome) (Step.ofOutcome outcome) :=
  fun _ => .inr rfl

theorem agrees_onScene (work : Scene → α × Scene) :
    Agrees view loose (onScene work) (onScene work) :=
  fun _ => .inr rfl

/-- Reading a part of the machine that is shown. -/
theorem agrees_read {f : Machine World → α} {g : Machine Shown → α}
    (hshown : ∀ machine, g (machine.mapWorld view) = f machine) :
    Agrees view loose (Step.read f) (Step.read g) := by
  intro machine
  exact .inr (by rw [read_apply, read_apply, hshown])

variable {first : Run World α} {second : Run Shown α}

theorem Agrees.bind (hagree : Agrees view loose first second)
    {next : α → Run World β} {next' : α → Run Shown β}
    (hnext : ∀ value, Agrees view loose (next value) (next' value)) :
    Agrees view loose (first >>= next) (second >>= next') := by
  intro machine
  rw [bind_apply, bind_apply]
  rcases hagree machine with ⟨reason, hloose, hend⟩ | hend
  · left
    rcases hfirst : first machine with ⟨outcome, after⟩
    rw [hfirst] at hend
    cases hend
    exact ⟨reason, hloose, rfl⟩
  · rw [hend]
    rcases first machine with ⟨outcome, after⟩
    cases outcome with
    | ok value => exact hnext value after
    | error exit => exact .inr rfl
    | halted reason => exact .inr rfl

/-- Where giving up is no excuse, the shown machine does the same. -/
theorem Agrees.shown (hagree : Agrees view (fun _ => False) first second)
    (machine : Machine World) :
    second (machine.mapWorld view) =
      ((first machine).1, (first machine).2.mapWorld view) := by
  rcases hagree machine with ⟨_, hloose, _⟩ | hend
  · exact hloose.elim
  · exact hend

/-- What is done to an outcome and its machine is done alike on both sides,
when giving up is left as it is. -/
private theorem agrees_of_forall {first' : Run World β} {second' : Run Shown β}
    (hagree : Agrees view loose first second)
    (hhalted : ∀ machine reason, (first machine).1 = .halted reason →
      (first' machine).1 = .halted reason)
    (hsame : ∀ machine, second (machine.mapWorld view) =
        ((first machine).1, (first machine).2.mapWorld view) →
      second' (machine.mapWorld view) =
        ((first' machine).1, (first' machine).2.mapWorld view)) :
    Agrees view loose first' second' := by
  intro machine
  rcases hagree machine with ⟨reason, hloose, hend⟩ | hend
  · exact .inl ⟨reason, hloose, hhalted machine reason hend⟩
  · exact .inr (hsame machine hend)

theorem Agrees.mapOutcome {f : Outcome Exit α → Outcome Exit β}
    (hkeeps : KeepsHalts f) (hagree : Agrees view loose first second) :
    Agrees view loose (first.mapOutcome f) (second.mapOutcome f) := by
  refine agrees_of_forall hagree ?_ ?_
  · intro machine reason hend
    exact (congrArg f hend).trans (hkeeps reason)
  · intro machine hend
    unfold Run.mapOutcome
    rw [hend]

theorem Agrees.noting (hagree : Agrees view loose first second) :
    Agrees view loose (noting first) (noting second) := by
  refine agrees_of_forall hagree ?_ ?_
  · intro machine reason hend
    unfold Run.noting
    rcases hfirst : first machine with ⟨outcome, after⟩
    rw [hfirst] at hend
    cases hend
    rfl
  · intro machine hend
    unfold Run.noting
    rw [hend]
    rcases first machine with ⟨outcome, after⟩
    cases outcome <;> rfl

/-- Code between a change of the machine and its undoing. -/
private theorem Agrees.wrapped {enter leave : Machine World → Machine World}
    {enter' leave' : Machine Shown → Machine Shown}
    (hagree : Agrees view loose first second)
    (henter : ∀ machine : Machine World,
      enter' (machine.mapWorld view) = (enter machine).mapWorld view)
    (hleave : ∀ machine : Machine World,
      leave' (machine.mapWorld view) = (leave machine).mapWorld view) :
    Agrees view loose
      (do Step.modify enter; Step.finally_ first leave)
      (do Step.modify enter'; Step.finally_ second leave') := by
  intro machine
  simp only [bind_apply, modify_apply, finally_apply, henter]
  rcases hagree (enter machine) with hloose | hend
  · exact .inl hloose
  · exact .inr (by rw [hend, hleave])

theorem Agrees.between (enter leave : Scene → Scene)
    (hagree : Agrees view loose first second) :
    Agrees view loose (first.between enter leave)
      (second.between enter leave) := by
  intro machine
  rcases hagree (machine.withScene (enter machine.scene)) with hloose | hend
  · exact .inl hloose
  · right
    have hshown : second ((machine.mapWorld view).withScene
        (enter (machine.mapWorld view).scene)) = _ := hend
    simp only [Run.between, hshown]
    rfl

/-- Agreement is a comparison. -/
def agreement (view : World → Shown) (loose : Halt → Prop) :
    Comparison World Shown :=
  .ofExact (Agrees view loose) agrees_ofOutcome agrees_onScene
    (fun hagree hnext => hagree.bind hnext) Agrees.mapOutcome Agrees.between

theorem Agrees.inCall (call : ActiveCall)
    (hagree : Agrees view loose first second) :
    Agrees view loose (inCall call first) (inCall call second) := by
  refine Agrees.bind (agrees_read ?_) fun calls => ?_
  · exact fun _ => rfl
  · apply (agreement view loose).bind ((agreement view loose).ofExcept _)
    intro pushed
    exact hagree.noting.wrapped (fun _ => rfl) (fun _ => rfl)

/-- What a reply does depends on the heap alone, and it changes nothing but the
heap and the state of the host. -/
theorem carryOut_map (view : World → Shown) (reply : Reply World)
    {machine : Machine World} {other : Machine Shown}
    (hheap : other.heap = machine.heap) :
    carryOut (reply.map view) other =
      let result := carryOut reply machine
      (result.1, { other with
        heap := result.2.heap, world := view result.2.world }) := by
  induction reply generalizing machine other with
  | answer result world =>
      cases result <;> simp [Reply.map, carryOut, bind_apply, hheap]
  | array content next ih =>
      change carryOut ((next (other.heap.addArray content).1).map view)
        { other with heap := (other.heap.addArray content).2 } = _
      rw [hheap]
      exact ih _ rfl
  | compose left right next ih =>
      simp only [Reply.map, carryOut, bind_apply, compose, readHeap, read_apply,
        hheap]
      cases machine.heap.compose left right with
      | ok made => exact ih _ rfl
      | error cause => exact ih _ hheap
  | native name next ih =>
      change carryOut ((next (.function (other.heap.addFunction _).1)).map view)
        { other with heap := (other.heap.addFunction _).2 } = _
      rw [hheap]
      exact ih _ rfl

theorem carryOut_eq_of_heap_eq (reply : Reply World)
    {machine other : Machine World} (hheap : other.heap = machine.heap) :
    carryOut reply other =
      let result := carryOut reply machine
      (result.1, { other with
        heap := result.2.heap, world := result.2.world }) := by
  have hsame := carryOut_map (fun world => world) reply hheap
  rwa [Reply.map_id] at hsame

theorem snd_carryOut (reply : Reply World) (machine : Machine World) :
    (carryOut reply machine).2 =
      { machine with
        heap := (carryOut reply machine).2.heap
        world := (carryOut reply machine).2.world } :=
  congrArg Prod.snd (carryOut_eq_of_heap_eq reply (Eq.refl machine.heap))

theorem agrees_carryOut (reply : Reply World) :
    Agrees view loose (carryOut reply) (carryOut (reply.map view)) := by
  intro machine
  right
  have hheap : (machine.mapWorld view).heap = machine.heap := rfl
  rw [carryOut_map view reply hheap, snd_carryOut]
  rfl

theorem agrees_askHost {natives : Natives World} {natives' : Natives Shown}
    (hreply : natives.ShownAs view natives') (name : String)
    (args : Container Value) :
    Agrees view loose (askHost natives name args)
      (askHost natives' name args) := by
  intro machine
  have hcarry : Agrees view loose _ _ :=
    agrees_carryOut (natives.reply name args machine.heap machine.world)
  rw [← hreply name args machine.heap machine.world] at hcarry
  exact hcarry machine

end Run

namespace Worker

open Run

/-- Two workers that agree on every task. -/
def Agree (view : World → Shown) (loose : Halt → Prop)
    (first : Worker World) (second : Worker Shown) : Prop :=
  (agreement view loose).Workers first second

variable {view : World → Shown} {loose : Halt → Prop}
  {first : Worker World} {second : Worker Shown}

theorem agrees_evalCall {natives : Natives World} {natives' : Natives Shown}
    (hagree : Agree view loose first second)
    (hreply : natives.ShownAs view natives') (id : FunctionId)
    (args : Container Value) (site : Option Span) :
    Agrees view loose (first.evalCall natives id args site)
      (second.evalCall natives' id args site) := by
  apply (agreement view loose).bind ((agreement view loose).readHeap _)
  intro row
  apply (agreement view loose).bind ((agreement view loose).found row)
  intro function
  apply Agrees.inCall _
  split
  · exact agrees_askHost hreply function.name _
  · exact Comparison.Workers.callScript hagree function.name _ _ _ _

end Worker

section Evaluation

variable {view : World → Shown} {loose : Halt → Prop}

theorem perform_agree {natives : Natives World} {natives' : Natives Shown}
    (hreply : natives.ShownAs view natives') {first : Worker World}
    {second : Worker Shown} (hagree : Worker.Agree view loose first second) :
    Worker.Agree view loose (perform natives first)
      (perform natives' second)
  | .expr id => Comparison.Workers.evalExpr hagree id
  | .stmt id => Comparison.Workers.evalStmt hagree id
  | .call function args site =>
      Worker.agrees_evalCall hagree hreply function args site

theorem Worker.agrees_script {workers : Nat → Worker World}
    {workers' : Nat → Worker Shown}
    (hagree : ∀ depth, Worker.Agree view loose (workers depth) (workers' depth))
    (script : Script) :
    Run.Agrees view loose (Worker.script workers script)
      (Worker.script workers' script) := by
  refine Run.Agrees.bind (Run.agrees_read ?_) fun depth => ?_
  · exact fun _ => rfl
  · exact (Run.agreement view loose).catchReturn
      (Comparison.Workers.stmts (hagree depth) script.body)

theorem Worker.agrees_value {workers : Nat → Worker World}
    {workers' : Nat → Worker Shown}
    (hagree : ∀ depth, Worker.Agree view loose (workers depth) (workers' depth))
    (callee : Value) (args : Container Value) :
    Run.Agrees view loose (Worker.value workers callee args)
      (Worker.value workers' callee args) := by
  cases callee with
  | function id =>
      refine Run.Agrees.bind (Run.agrees_read ?_) fun depth => ?_
      · exact fun _ => rfl
      · exact hagree depth _
  | _ => exact (Run.agreement view loose).fail_self rfl

/-- A host that shows less makes no difference to what happens. -/
theorem evaluate_agree {natives : Natives World} {natives' : Natives Shown}
    (hreply : natives.ShownAs view natives') (depth : Nat) :
    Worker.Agree view (fun _ => False) (evaluate natives depth)
      (evaluate natives' depth) := by
  induction depth with
  | zero => exact fun _ _ => .inr rfl
  | succ depth ih => exact perform_agree hreply ih

/-- With more depth, only an evaluation that ran out of it can end
differently. -/
theorem evaluate_agree_of_le (natives : Natives World) {low high : Nat}
    (hle : low ≤ high) :
    Worker.Agree (fun world => world) (· = .exhausted)
      (evaluate natives low) (evaluate natives high) := by
  induction low generalizing high with
  | zero => exact fun task machine => .inl ⟨.exhausted, rfl, rfl⟩
  | succ low ih =>
      obtain ⟨high, rfl⟩ : ∃ above, high = above + 1 :=
        ⟨high - 1, by omega⟩
      exact perform_agree natives.shownAs_self (ih (by omega))

end Evaluation

end ChainScript
