import ChainScript.Proofs.CallDepth
import ChainScript.Proofs.FairHosts
import ChainScript.Proofs.History
import ChainScript.Proofs.Nesting

/-
What has been written down about values stays true.

Each moment comes with the store of that time, which the store of any later
time extends.  So the values that were there at the moment are held, and none
of their frames has changed.
-/

namespace ChainScript

open Step Run

variable {World : Type}

/-- The frames of an array have the same content in both heaps, and so have
its keys and all of it. -/
structure Heap.KeepsArray (earlier later : Heap) (chain : Chain) : Prop where
  frame_eq : ∀ frame ∈ chain.frames, later.frame frame = earlier.frame frame
  lookup_eq : ∀ key, later.lookup? chain key = earlier.lookup? chain key
  flatten_eq : later.flatten chain = earlier.flatten chain

theorem Heap.keepsArray_of_frames {earlier later : Heap} {chain : Chain}
    (hframes : ∀ frame ∈ chain.frames,
      later.frame frame = earlier.frame frame) :
    earlier.KeepsArray later chain :=
  ⟨hframes, fun key => congrArg (Option.map Prod.fst)
    (resolveIn_congr hframes key), mergeFrames_congr hframes⟩

/-- Both heaps answer, and they answer alike. -/
def SameAnswer {α : Type} (earlier later : Option α) : Prop :=
  ∃ answer, earlier = some answer ∧ later = some answer

/-- The values that a task is given. -/
def Task.values : Task → List Value
  | .expr _ | .stmt _ => []
  | .call function args _ => .function function :: args.entries.map Prod.snd

namespace Moment

def heap : Moment World → Heap
  | .begins _ machine => machine.heap
  | .ends _ _ _ after => after.heap
  | .served _ session => session.heap

def world : Moment World → World
  | .begins _ machine => machine.world
  | .ends _ _ _ after => after.world
  | .served _ session => session.world

/-- The values that are handed over at a moment. -/
def hand : Moment World → List Value
  | .begins task _ => task.values
  | .ends _ _ outcome _ => outcome.values
  | .served _ session => session.answers

/-- An evaluation that ends at the moment ends in a value or an early exit. -/
def Answered : Moment World → Prop
  | .ends _ _ outcome _ => outcome.Answered
  | _ => True

/-- An expression or a statement that begins at the moment does so where all is
sound, and in a scope that can be written. -/
def Placed : Moment World → Prop
  | .begins (.expr _) machine | .begins (.stmt _) machine =>
      ∃ store : Store, store.heap = machine.heap ∧
        store.Sound machine.programs ∧ store.Open machine.env
  | _ => True

/-- The value exists at a moment: it is handed over, or the host knows it, or
it is somewhere in the heap. -/
def Shows (known : World → Value → Prop) (moment : Moment World) :
    Value → Prop :=
  moment.heap.Occurs fun value =>
    value ∈ moment.hand ∨ known moment.world value

/-- The arrays of a moment are unchanged in a later heap, and its values have
the texts that they had and compare as they did. -/
structure LastsIn (known : World → Value → Prop) (moment : Moment World)
    (later : Heap) : Prop where
  array : ∀ chain, moment.Shows known (.array chain) →
    moment.heap.KeepsArray later chain
  text : ∀ value, moment.Shows known value →
    SameAnswer (moment.heap.text? value) (later.text? value)
  equal : ∀ left right, moment.Shows known left → moment.Shows known right →
    SameAnswer (moment.heap.equal? left right) (later.equal? left right) ∧
      SameAnswer (moment.heap.same? left right) (later.same? left right)

/-- The values of a moment were held by a store that came from the first one and
has only grown since. -/
def SeenBy (origin : Store) (known : World → Value → Prop) (store : Store)
    (moment : Moment World) : Prop :=
  ∃ (seen : Store) (programs : Array Program), seen.heap = moment.heap ∧
    seen.Sound programs ∧ origin.Extends seen ∧ seen.Extends store ∧
    ∀ value, moment.Shows known value → seen.Holds value

theorem SeenBy.extends {origin : Store} {known : World → Value → Prop}
    {before after : Store} {moment : Moment World}
    (hseen : moment.SeenBy origin known before)
    (hextends : before.Extends after) : moment.SeenBy origin known after := by
  obtain ⟨seen, programs, hheap, hsound, horigin, hmore, hholds⟩ := hseen
  exact ⟨seen, programs, hheap, hsound, horigin, hmore.trans hextends, hholds⟩

private theorem sameAnswer {α : Type} {earlier later : Option α}
    (hsome : earlier.isSome) (heq : later = earlier) :
    SameAnswer earlier later := by
  obtain ⟨answer, hanswer⟩ := Option.isSome_iff_exists.mp hsome
  exact ⟨answer, hanswer, heq.trans hanswer⟩

theorem SeenBy.lastsIn {origin : Store} {known : World → Value → Prop}
    {store : Store} {moment : Moment World}
    (hseen : moment.SeenBy origin known store) :
    moment.LastsIn known store.heap := by
  obtain ⟨seen, programs, hheap, hsound, _, hextends, hholds⟩ := hseen
  refine ⟨fun chain hchain => ?_, fun value hvalue => ?_,
    fun left right hleft hright => ?_⟩ <;> rw [← hheap]
  · exact Heap.keepsArray_of_frames fun frame hframe =>
      hextends.frame_eq frame ((hholds _ hchain).1 frame hframe)
  · have hheld := hholds value hvalue
    exact sameAnswer (hsound.text?_isSome hheld)
      (hextends.text?_eq hsound hheld)
  · have hone := hholds left hleft
    have hother := hholds right hright
    exact ⟨sameAnswer (hsound.equal?_isSome hone hother)
        (hextends.equal?_eq hsound hone hother),
      sameAnswer (hsound.same?_isSome hone hother)
        (hextends.same?_eq hsound hone hother)⟩

end Moment

namespace Watched

/-- The host knows only values that are held.  All moments were seen by earlier
stores, and each lasted at least until the later ones.  No evaluation was
abandoned, and all code began in scopes that can be written. -/
structure KeptBy (origin : Store) (known : World → Value → Prop)
    (store : Store) (watched : Watched World) : Prop where
  begun : origin.Extends store
  holds : store.HoldsKnown known watched.world
  seen : ∀ moment ∈ watched.past, moment.SeenBy origin known store
  lasts : watched.past.Pairwise fun later earlier =>
    earlier.LastsIn known later.heap
  answered : ∀ moment ∈ watched.past, moment.Answered
  placed : ∀ moment ∈ watched.past, moment.Placed

variable {origin : Store} {known : World → Value → Prop} {store : Store}
  {watched : Watched World}

theorem KeptBy.extends {before after : Store}
    (hkept : watched.KeptBy origin known before)
    (hextends : before.Extends after) : watched.KeptBy origin known after :=
  ⟨hkept.begun.trans hextends, hkept.holds.extends hextends,
    fun moment hmoment => (hkept.seen moment hmoment).extends hextends,
    hkept.lasts, hkept.answered, hkept.placed⟩

/-- A moment at which all values are held can be written down. -/
theorem KeptBy.note {programs : Array Program} {moment : Moment World}
    (hkept : watched.KeptBy origin known store)
    (hsound : store.Sound programs)
    (hheap : moment.heap = store.heap) (hworld : moment.world = watched.world)
    (hhand : ∀ value ∈ moment.hand, store.Holds value)
    (hanswered : moment.Answered) (hplaced : moment.Placed) :
    (watched.note moment).KeptBy origin known store := by
  have hgiven : ∀ value, value ∈ moment.hand ∨ known moment.world value →
      store.Holds value := by
    rintro value (hvalue | hvalue)
    · exact hhand value hvalue
    · exact hkept.holds value (hworld ▸ hvalue)
  refine ⟨hkept.begun, hkept.holds, fun other hother => ?_, ?_,
    List.forall_mem_cons.mpr ⟨hanswered, hkept.answered⟩,
    List.forall_mem_cons.mpr ⟨hplaced, hkept.placed⟩⟩
  · rcases List.mem_cons.mp hother with rfl | hold
    · refine ⟨store, programs, hheap.symm, hsound, hkept.begun, .refl store,
        fun value hvalue => hsound.holds_of_occurs hgiven ?_⟩
      rwa [Moment.Shows, hheap] at hvalue
    · exact hkept.seen other hold
  · refine List.pairwise_cons.mpr ⟨fun other hother => ?_, hkept.lasts⟩
    rw [hheap]
    exact (hkept.seen other hother).lastsIn

end Watched

/-- What a watching host keeps. -/
def Custody.watched (origin : Store) (known : World → Value → Prop) :
    Custody (Watched World) where
  Keeps store watched := watched.KeptBy origin known store
  extends_ hkept hextends := hkept.extends hextends

variable {origin : Store} {supply : Supply} {known : World → Value → Prop}
  {site : Site} {base : Store}

/-- The functions of a host that uses what it is supplied with are safe, also
while it is watching. -/
theorem Natives.DrawOn.safe_watched {natives : Natives World}
    (hhonours : origin.Honours supply)
    (hnatives : natives.DrawOn supply known) :
    natives.watched.Safe (Custody.watched origin known) := by
  intro site base name args hargs machine store hgrows hat
  have hgiven : ∀ value, value ∈ args.entries.map Prod.snd ∨
      known machine.world.world value → store.Holds value := by
    rintro value (hvalue | hvalue)
    · obtain ⟨entry, hentry, rfl⟩ := List.mem_map.mp hvalue
      exact (hargs entry hentry).extends hgrows.toExtends
    · exact hat.world.holds value hvalue
  have hreply := hnatives name args machine.heap machine.world.world
  refine hreply.safe_carryOut (hhonours.extends hat.world.begun)
    (fun after world hmore hknown => ?_) (.refl store) hgiven hat
  have hkept := hat.world.extends hmore
  exact ⟨hkept.begun, hknown, hkept.seen, hkept.lasts, hkept.answered, hkept.placed⟩

/-- Writing down how a task begins and ends is safe. -/
theorem Run.Safe.recorded {task : Task} {body : Run (Watched World) Value}
    (htask : ∀ value ∈ task.values, base.Holds value)
    (hplaced : ∀ (machine : Machine World) (store : Store), base.Grows store →
      machine.site = site → machine.heap = store.heap →
      store.Sound site.programs → (Moment.begins task machine).Placed)
    (hbody : Safe (Custody.watched origin known) site base body
      Store.Holds) :
    Safe (Custody.watched origin known) site base (recorded task body)
      Store.Holds := by
  intro machine store hgrows hat
  have hhand : ∀ value ∈ task.values, store.Holds value :=
    fun value hvalue => (htask value hvalue).extends hgrows.toExtends
  have hbegun : (machine.began task).world.KeptBy origin known store :=
    hat.world.note hat.sound hat.heap_eq rfl hhand trivial
      (hplaced _ store hgrows hat.site_eq hat.heap_eq hat.sound)
  obtain ⟨after, hafter, hat', hsafe⟩ := hbody (machine.began task) store
    hgrows ⟨hat.site_eq, hat.heap_eq, hat.sound, hbegun⟩
  have hended :
      (Run.recorded task body machine).2.world.KeptBy origin known after :=
    hat'.world.note hat'.sound hat'.heap_eq rfl
      (Outcome.Safe.holds_values hsafe) (Outcome.Safe.answered hsafe) trivial
  exact ⟨after, hafter,
    ⟨hat'.site_eq, hat'.heap_eq, hat'.sound, hended⟩, hsafe⟩

/-- Where code runs in a sound store, it is placed if its scope can be
written. -/
theorem placed_of_open {machine : Machine World} {store : Store}
    (hopen : base.Open site.env) (hgrows : base.Grows store)
    (hsite : machine.site = site) (hheap : machine.heap = store.heap)
    (hsound : store.Sound site.programs) :
    ∃ store : Store, store.heap = machine.heap ∧
      store.Sound machine.programs ∧ store.Open machine.env := by
  subst hsite
  exact ⟨store, hheap.symm, hsound, hopen.grows hgrows⟩

namespace Worker

theorem SafeTo.recorded {worker : Worker (Watched World)} {depth : Nat}
    (hworker : worker.SafeTo (Custody.watched origin known) depth) :
    SafeTo (Custody.watched origin known)
      (fun task => Run.recorded task (worker task)) depth := by
  refine ⟨fun site hprograms hdepth => ?_,
    fun site program older hprograms hprogram hgrows hdepth => ?_,
    fun site program older hprograms hprogram hgrows hdepth => ?_⟩
  · intro env base function args span hfunction hargs
    refine Run.Safe.recorded (fun value hvalue => ?_)
      (fun _ _ _ _ _ _ => trivial)
      (hworker.calls site hprograms hdepth env base function args span
        hfunction hargs)
    rcases List.mem_cons.mp hvalue with rfl | hvalue
    · exact hfunction
    · obtain ⟨entry, hentry, rfl⟩ := List.mem_map.mp hvalue
      exact hargs entry hentry
  · intro env base id hopen hid
    exact Run.Safe.recorded (fun _ hvalue => absurd hvalue List.not_mem_nil)
      (fun _ _ => placed_of_open hopen)
      (hworker.exprs site program older hprograms hprogram hgrows hdepth
        env base id hopen hid)
  · intro env base id hopen hid
    exact Run.Safe.recorded (fun _ hvalue => absurd hvalue List.not_mem_nil)
      (fun _ _ => placed_of_open hopen)
      (hworker.stmts site program older hprograms hprogram hgrows hdepth
        env base id hopen hid)

end Worker

/-- Watched evaluation with some depth is safe for all tasks that reach no
deeper. -/
theorem watch_safeTo {natives : Natives World}
    (hhonours : origin.Honours supply)
    (hnatives : natives.DrawOn supply known) (depth : Nat) :
    (watch natives depth).SafeTo (Custody.watched origin known) depth := by
  induction depth with
  | zero => exact Worker.safeTo_zero _
  | succ depth ih => exact (ih.perform (hnatives.safe_watched hhonours)).recorded

end ChainScript
