import ChainScript.Machine
import ChainScript.Proofs.Store
import ChainScript.Session

/-
Safe computations: they end in a result or an exit, on a machine whose heap is
still sound.

Values are judged by the store they were found in, and stores only grow, so a
value that was held once is held from then on.  What a computation may rely on
is therefore stated for some earlier store, and it has to be safe at every
later one.
-/

namespace ChainScript

open Step

variable {World α β : Type}

/-- What a computation gives back as it was. -/
structure Site where
  programs : Array Program
  program : Nat
  env : Chain
  calls : CallStack

namespace Site

/-- The same place in another scope. -/
def inScope (site : Site) (env : Chain) : Site :=
  { site with env }

end Site

def Machine.site (machine : Machine World) : Site :=
  ⟨machine.programs, machine.program, machine.env, machine.calls⟩

/-- What has to hold between the state of a host and a store.  It survives
whatever happens to the store. -/
structure Custody (World : Type) where
  Keeps : Store → World → Prop
  extends_ : ∀ {before after : Store} {world : World},
    Keeps before world → before.Extends after → Keeps after world

/-- The machine is at a site, with the heap of a sound store. -/
structure Machine.At (custody : Custody World) (site : Site) (store : Store)
    (machine : Machine World) : Prop where
  site_eq : machine.site = site
  heap_eq : machine.heap = store.heap
  sound : store.Sound site.programs
  world : custody.Keeps store machine.world

namespace Store

/-- The values that an exit carries are held. -/
def HoldsExit (store : Store) (exit : Exit) : Prop :=
  ∀ value ∈ exit.values, store.Holds value

theorem holdsExit_congr {store : Store} {exit other : Exit}
    (hreason : other.reason = exit.reason) (hexit : store.HoldsExit exit) :
    store.HoldsExit other := by
  intro value hvalue
  apply hexit value
  unfold Exit.values at hvalue ⊢
  rwa [hreason] at hvalue

theorem HoldsExit.extends {before after : Store} {exit : Exit}
    (hexit : before.HoldsExit exit) (hextends : before.Extends after) :
    after.HoldsExit exit :=
  fun value hvalue => (hexit value hvalue).extends hextends

end Store

/-- The computation ended in a good result or in an exit whose values are
held. -/
def Outcome.Safe (store : Store) (Good : α → Prop) : Outcome Exit α → Prop
  | .ok value => Good value
  | .error exit => store.HoldsExit exit
  | .halted _ => False

theorem Outcome.Safe.answered {store : Store} {Good : α → Prop}
    {outcome : Outcome Exit α} (hsafe : outcome.Safe store Good) :
    outcome.Answered := by
  cases outcome with
  | ok value => trivial
  | error exit => trivial
  | halted reason => exact hsafe

/-- All values that are handed on at the end are held. -/
theorem Outcome.Safe.holds_values {store : Store}
    {outcome : Outcome Exit Value} (hsafe : outcome.Safe store store.Holds) :
    ∀ value ∈ outcome.values, store.Holds value := by
  cases outcome with
  | ok value =>
      intro other hother
      rw [List.mem_singleton.mp hother]
      exact hsafe
  | error exit => exact hsafe
  | halted reason => exact hsafe.elim

namespace Run

/-- At a site, and from a given store on, the computation leaves a larger
store behind, the site as it was, and a good result or an exit. -/
def Safe (custody : Custody World) (site : Site) (base : Store)
    (body : Run World α) (Good : Store → α → Prop) : Prop :=
  ∀ machine store, base.Grows store → machine.At custody site store →
    ∃ after, store.Grows after ∧ (body machine).2.At custody site after ∧
      (body machine).1.Safe after (Good after)

variable {custody : Custody World} {site : Site} {base : Store}
  {body : Run World α} {Good : Store → α → Prop} {Then : Store → β → Prop}

theorem safe_pure {value : α}
    (hgood : ∀ store, base.Grows store → Good store value) :
    Safe custody site base (pure value) Good :=
  fun _ store hgrows hat => ⟨store, .refl store, hat, hgood store hgrows⟩

theorem safe_fail {exit : Exit} (hexit : base.HoldsExit exit) :
    Safe custody site base (Step.fail exit) Good :=
  fun _ store hgrows hat =>
    ⟨store, .refl store, hat, hexit.extends hgrows.toExtends⟩

/-- A fault that carries no value. -/
theorem safe_fault {cause : Cause} (hnone : (Exit.ofCause cause).values = []) :
    Safe custody site base (fault cause) Good := by
  apply safe_fail
  intro value hvalue
  rw [hnone] at hvalue
  exact absurd hvalue List.not_mem_nil

theorem safe_faultAt {span : Span} {cause : Cause}
    (hnone : (Exit.ofCause cause).values = []) :
    Safe custody site base (faultAt span cause) Good := by
  apply safe_fail
  intro value hvalue
  change value ∈ (Exit.ofCause cause).values at hvalue
  rw [hnone] at hvalue
  exact absurd hvalue List.not_mem_nil

theorem Safe.bind {first : Run World α} {next : α → Run World β}
    (hfirst : Safe custody site base first Good)
    (hnext : ∀ store value, base.Grows store → Good store value →
      Safe custody site store (next value) Then) :
    Safe custody site base (first >>= next) Then := by
  intro machine store hgrows hat
  obtain ⟨middle, hmiddle, hat', hsafe⟩ := hfirst machine store hgrows hat
  rw [bind_apply]
  rcases hend : first machine with ⟨outcome, stopped⟩
  rw [hend] at hat' hsafe
  cases outcome with
  | ok value =>
      obtain ⟨after, hafter, hrest⟩ := hnext middle value
        (hgrows.trans hmiddle) hsafe stopped middle (.refl _) hat'
      exact ⟨after, hmiddle.trans hafter, hrest⟩
  | error exit => exact ⟨middle, hmiddle, hat', hsafe⟩
  | halted reason => exact hsafe.elim

/-- A safe computation is safe from every later store on. -/
theorem Safe.later {store : Store} (hbody : Safe custody site base body Good)
    (hgrows : base.Grows store) : Safe custody site store body Good :=
  fun machine after hmore hat => hbody machine after (hgrows.trans hmore) hat

theorem safe_read {f : Machine World → α}
    (hgood : ∀ machine store, base.Grows store →
      machine.At custody site store → Good store (f machine)) :
    Safe custody site base (Step.read f) Good :=
  fun machine store hgrows hat =>
    ⟨store, .refl store, hat, hgood machine store hgrows hat⟩

theorem safe_readHeap {f : Heap → α}
    (hgood : ∀ store, base.Grows store → store.Sound site.programs →
      Good store (f store.heap)) :
    Safe custody site base (readHeap f) Good := by
  apply safe_read
  intro machine store hgrows hat
  rw [hat.heap_eq]
  exact hgood store hgrows hat.sound

theorem safe_withHeap {f : Heap → α × Heap}
    (hgood : ∀ store, base.Grows store → store.Sound site.programs →
      ∃ after : Store, after.heap = (f store.heap).2 ∧
        after.Sound site.programs ∧ store.Grows after ∧
        Good after (f store.heap).1) :
    Safe custody site base (withHeap f) Good := by
  intro machine store hgrows hat
  obtain ⟨after, hheap, hsound, hafter, hvalue⟩ :=
    hgood store hgrows hat.sound
  rw [← hat.heap_eq] at hheap hvalue
  exact ⟨after, hafter, ⟨hat.site_eq, hheap.symm, hsound,
    custody.extends_ hat.world hafter.toExtends⟩, hvalue⟩

/-- A row that is there. -/
theorem safe_row {row : Option α} {value : α} (hrow : row = some value) :
    Safe custody site base (Step.found row) fun _ found => value = found := by
  subst hrow
  exact safe_pure fun _ _ => rfl

/-- The result of an operation, whose faults carry no value. -/
theorem safe_ofExcept {result : Except Cause α}
    (hnone : ∀ cause, result = .error cause →
      (Exit.ofCause cause).values = [])
    (hgood : ∀ value, result = .ok value → ∀ store, base.Grows store →
      Good store value) :
    Safe custody site base (ofExcept result) Good := by
  cases result with
  | ok value => exact safe_pure (hgood value rfl)
  | error cause => exact safe_fault (hnone cause rfl)

/-- What an attempt hands on. -/
def SafeEnd (Good : Store → α → Prop) (store : Store) : Except Exit α → Prop
  | .ok value => Good store value
  | .error exit => store.HoldsExit exit

theorem Safe.attempt (hbody : Safe custody site base body Good) :
    Safe custody site base (Step.attempt body) (SafeEnd Good) := by
  intro machine store hgrows hat
  obtain ⟨after, hafter, hat', hsafe⟩ := hbody machine store hgrows hat
  refine ⟨after, hafter, ?_⟩
  unfold Step.attempt
  rcases hend : body machine with ⟨outcome, stopped⟩
  rw [hend] at hat' hsafe
  cases outcome with
  | ok value => exact ⟨hat', hsafe⟩
  | error exit => exact ⟨hat', hsafe⟩
  | halted reason => exact hsafe.elim

theorem Safe.located (span : Span)
    (hbody : Safe custody site base body Good) :
    Safe custody site base (located span body) Good := by
  intro machine store hgrows hat
  obtain ⟨after, hafter, hat', hsafe⟩ := hbody machine store hgrows hat
  refine ⟨after, hafter, ?_⟩
  unfold Run.located mapError
  rcases hend : body machine with ⟨outcome, stopped⟩
  rw [hend] at hat' hsafe
  cases outcome with
  | ok value => exact ⟨hat', hsafe⟩
  | error exit =>
      exact ⟨hat', Store.holdsExit_congr (exit.reason_orSpan span) hsafe⟩
  | halted reason => exact hsafe.elim

theorem Safe.noting (hbody : Safe custody site base body Good) :
    Safe custody site base (noting body) Good := by
  intro machine store hgrows hat
  obtain ⟨after, hafter, hat', hsafe⟩ := hbody machine store hgrows hat
  refine ⟨after, hafter, ?_⟩
  unfold Run.noting
  rcases hend : body machine with ⟨outcome, stopped⟩
  rw [hend] at hat' hsafe
  cases outcome with
  | ok value => exact ⟨hat', hsafe⟩
  | error exit =>
      exact ⟨hat', Store.holdsExit_congr (stopped.calls.reason_attach exit)
        hsafe⟩
  | halted reason => exact hsafe.elim

theorem Safe.catchReturn {body : Run World Value}
    (hbody : Safe custody site base body Store.Holds) :
    Safe custody site base (catchReturn body) Store.Holds := by
  intro machine store hgrows hat
  obtain ⟨after, hafter, hat', hsafe⟩ := hbody machine store hgrows hat
  refine ⟨after, hafter, ?_⟩
  unfold Run.catchReturn
  rcases hend : body machine with ⟨outcome, stopped⟩
  rw [hend] at hat' hsafe
  cases outcome with
  | ok value => exact ⟨hat', hsafe⟩
  | halted reason => exact hsafe.elim
  | error exit =>
      dsimp only
      split
      · next value hreason =>
          refine ⟨hat', hsafe value ?_⟩
          simp [Exit.values, hreason]
      · exact ⟨hat', hsafe⟩

/-- Code in a new innermost frame, which makes its scope open. -/
theorem safe_inFrame {content : Container Value}
    (hcontent : base.HoldsAll content) (henv : base.Reaches site.env)
    (hbody : ∀ env store, base.Grows store → store.Open env →
      Safe custody (site.inScope env) store body Good) :
    Safe custody site base (inFrame content body) Good := by
  intro machine store hgrows hat
  rw [inFrame_apply]
  obtain rfl : site = machine.site := hat.site_eq.symm
  obtain ⟨pushed, hheap, hsound, hmore, hopen⟩ := hat.sound.pushNew
    (hcontent.extends hgrows.toExtends) (henv.extends hgrows.toExtends)
  rw [← hat.heap_eq] at hheap hopen
  let inner : Machine World := { machine with
    env := (machine.heap.pushNew content machine.env).1
    heap := (machine.heap.pushNew content machine.env).2 }
  have hinner : inner.At custody (machine.site.inScope inner.env) pushed :=
    ⟨rfl, hheap.symm, hsound, custody.extends_ hat.world hmore.toExtends⟩
  obtain ⟨after, hafter, hat', hsafe⟩ :=
    hbody inner.env pushed (hgrows.trans hmore) hopen inner pushed (.refl _)
      hinner
  refine ⟨after, hmore.trans hafter, ⟨?_, hat'.heap_eq, hat'.sound,
    hat'.world⟩, hsafe⟩
  have hsite := hat'.site_eq
  simp only [Machine.site, Site.inScope, Site.mk.injEq] at hsite ⊢
  exact ⟨hsite.1, hsite.2.1, congrArg List.tail hsite.2.2.1, hsite.2.2.2⟩

/-- Code in another scope. -/
theorem Safe.inChain {chain : Chain}
    (hbody : Safe custody (site.inScope chain) base body Good) :
    Safe custody site base (inChain chain body) Good := by
  intro machine store hgrows hat
  rw [inChain_apply]
  obtain rfl : site = machine.site := hat.site_eq.symm
  obtain ⟨after, hafter, hat', hsafe⟩ := hbody { machine with env := chain }
    store hgrows ⟨rfl, hat.heap_eq, hat.sound, hat.world⟩
  refine ⟨after, hafter, ⟨?_, hat'.heap_eq, hat'.sound, hat'.world⟩, hsafe⟩
  have hsite := hat'.site_eq
  simp only [Machine.site, Site.inScope, Site.mk.injEq] at hsite ⊢
  exact ⟨hsite.1, hsite.2.1, trivial, hsite.2.2.2⟩

/-- Code of another program. -/
theorem Safe.inProgram {number : Nat}
    (hbody : Safe custody { site with program := number } base body Good) :
    Safe custody site base (inProgram number body) Good := by
  intro machine store hgrows hat
  rw [inProgram_apply]
  obtain rfl : site = machine.site := hat.site_eq.symm
  obtain ⟨after, hafter, hat', hsafe⟩ :=
    hbody { machine with program := number } store hgrows
      ⟨rfl, hat.heap_eq, hat.sound, hat.world⟩
  refine ⟨after, hafter, ⟨?_, hat'.heap_eq, hat'.sound, hat'.world⟩, hsafe⟩
  have hsite := hat'.site_eq
  simp only [Machine.site, Site.mk.injEq] at hsite ⊢
  exact ⟨hsite.1, trivial, hsite.2.2⟩

/-- The body of an active call, if there is room for one more. -/
theorem safe_inCall {call : ActiveCall}
    (hbody : ∀ calls, site.calls.push call = .ok calls →
      Safe custody { site with calls } base body Good) :
    Safe custody site base (inCall call body) Good := by
  intro machine store hgrows hat
  obtain rfl : site = machine.site := hat.site_eq.symm
  cases hpush : machine.calls.push call with
  | error cause =>
      rw [inCall_of_error hpush]
      refine safe_fault ?_ machine store hgrows hat
      unfold CallStack.push at hpush
      split at hpush
      · cases hpush
        rfl
      · cases hpush
  | ok calls =>
      rw [inCall_of_ok hpush]
      obtain ⟨after, hafter, hat', hsafe⟩ :=
        (hbody calls hpush).noting { machine with calls } store hgrows
          ⟨rfl, hat.heap_eq, hat.sound, hat.world⟩
      refine ⟨after, hafter, ⟨?_, hat'.heap_eq, hat'.sound, hat'.world⟩,
        hsafe⟩
      have hsite := hat'.site_eq
      simp only [Machine.site, Site.mk.injEq] at hsite ⊢
      refine ⟨hsite.1, hsite.2.1, hsite.2.2.1, ?_⟩
      rw [hsite.2.2.2]
      exact CallStack.pop_push hpush

end Run

end ChainScript
