import ChainScript.Proofs.SafeOperations

/-
The steps that evaluation takes by itself are safe: reading the scope, binding
a name, and making arrays and functions.
-/

namespace ChainScript

open Step

variable {World : Type} {custody : Custody World} {site : Site}
  {base : Store}

namespace Run

/-- The operations that can fail do so without a value in the fault. -/
theorem safe_plainResult {result : Except Cause Value}
    (hresult : PlainResult result) :
    Safe custody site base (ofExcept result) Store.Holds := by
  refine safe_ofExcept (fun cause hcause => ?_) fun value hvalue store _ => ?_
  · rw [hcause] at hresult
    exact hresult
  · rw [hvalue] at hresult
    exact hresult.holds store

theorem safe_toCondition (construct : String) (value : Value) :
    Safe custody site base (ofExcept (toCondition construct value))
      fun _ _ => True :=
  safe_ofExcept (fun _ hfault => bare_toCondition hfault)
    fun _ _ _ _ => trivial

theorem safe_program {program : Program}
    (hprogram : site.programs[site.program]? = some program) :
    Safe custody site base Run.program fun _ found => program = found := by
  have hread : Safe custody site base
      (Step.read fun machine => machine.programs[machine.program]?)
      fun _ row => some program = row := by
    apply safe_read
    intro machine store _ hat
    obtain rfl : site = machine.site := hat.site_eq.symm
    exact hprogram.symm
  exact hread.bind fun store row _ hrow => safe_row hrow.symm

theorem safe_lookup? (key : Key) :
    Safe custody site base (lookup? key) fun store found =>
      ∀ value, found = some value → store.Holds value := by
  apply safe_read
  intro machine store _ hat value hvalue
  rw [hat.heap_eq] at hvalue
  exact hat.sound.holds_lookup? hvalue

theorem safe_lookup (key : Key) :
    Safe custody site base (lookup key) Store.Holds := by
  apply (safe_lookup? key).bind
  intro store found _ hfound
  cases found with
  | some value =>
      exact safe_pure fun _ hgrows =>
        (hfound value rfl).extends hgrows.toExtends
  | none => exact safe_fault rfl

/-- Only an open scope can be written. -/
theorem safe_bindKey (hopen : base.Open site.env) (key : Key) {value : Value}
    (hvalue : base.Holds value) :
    Safe custody site base (Run.bind key value) fun _ _ => True := by
  intro machine store hgrows hat
  obtain rfl : site = machine.site := hat.site_eq.symm
  obtain ⟨link, outer, henv, hunsealed⟩ := (hopen.grows hgrows).unsealed
  obtain ⟨heap, programs, number, env, calls, world⟩ := machine
  obtain rfl : env = link :: outer := henv
  obtain rfl : heap = store.heap := hat.heap_eq
  obtain ⟨after, hheap, hsound, hmore⟩ := hat.sound.setInFrame hunsealed key
    (hvalue.extends hgrows.toExtends)
  exact ⟨after, hmore, ⟨rfl, hheap.symm, hsound,
    custody.extends_ hat.world hmore.toExtends⟩, trivial⟩

theorem safe_newArray {content : Container Value}
    (hcontent : base.HoldsAll content) :
    Safe custody site base (newArray content) Store.Holds :=
  safe_withHeap fun _ hgrows hsound =>
    hsound.addArray (hcontent.extends hgrows.toExtends)

theorem safe_newNative (name : String) :
    Safe custody site base (newNative name) Store.Holds :=
  safe_withHeap fun store _ hsound =>
    ⟨store.addFunction { name, body := .native }, rfl,
      hsound.addFunction Container.all_empty trivial, Store.grows_addFunction,
      Store.holds_addFunction⟩

theorem safe_newClosure {program : Program} (name : String)
    {definition : FuncId} (henv : base.Reaches site.env)
    (hprogram : site.programs[site.program]? = some program)
    (hfunc : program.HasFunc definition) :
    Safe custody site base (newClosure name definition) Store.Holds := by
  intro machine store hgrows hat
  obtain rfl : site = machine.site := hat.site_eq.symm
  obtain ⟨heap, programs, number, env, calls, world⟩ := machine
  obtain rfl : heap = store.heap := hat.heap_eq
  have hsound : (store.addFunction
      { name, body := .script number definition env }).Sound programs :=
    hat.sound.addFunction Container.all_empty
      ⟨⟨program, hprogram, hfunc⟩, henv.extends hgrows.toExtends⟩
  exact ⟨_, Store.grows_addFunction, ⟨rfl, rfl, hsound,
    custody.extends_ hat.world Store.grows_addFunction.toExtends⟩,
    Store.holds_addFunction⟩

/-- What composing two values may lead to. -/
def Composed (store : Store) : Except Cause Value → Prop
  | .ok value => store.Holds value
  | .error cause => cause.Bare

theorem safe_compose {left right : Value} (hleft : base.Holds left)
    (hright : base.Holds right) :
    Safe custody site base (compose left right) Composed := by
  intro machine store hgrows hat
  unfold compose
  rw [bind_apply]
  simp only [readHeap, read_apply]
  cases hcompose : machine.heap.compose left right with
  | error cause =>
      exact ⟨store, .refl store, hat, bare_heapCompose hcompose⟩
  | ok made =>
      obtain ⟨value, heap⟩ := made
      rw [hat.heap_eq] at hcompose
      obtain ⟨after, rfl, hsound, hmore, hvalue⟩ := hat.sound.compose
        (hleft.extends hgrows.toExtends) (hright.extends hgrows.toExtends)
        hcompose
      exact ⟨after, hmore, ⟨hat.site_eq, rfl, hsound,
        custody.extends_ hat.world hmore.toExtends⟩, hvalue⟩

theorem safe_composed {result : Except Cause Value}
    (hresult : Composed base result) :
    Safe custody site base (ofExcept result) Store.Holds := by
  refine safe_ofExcept (fun cause hcause => ?_)
    fun value hvalue store hgrows => ?_
  · subst hcause
    exact hresult
  · subst hvalue
    exact Store.Holds.extends hresult hgrows.toExtends

/-- The text of a held value always exists. -/
theorem safe_textOf {value : Value} (hvalue : base.Holds value) :
    Safe custody site base (textOf value) fun _ _ => True := by
  have hread : Safe custody site base (readHeap fun heap => heap.text? value)
      fun _ text => text.isSome = true :=
    safe_readHeap fun store hgrows hsound =>
      hsound.text?_isSome (hvalue.extends hgrows.toExtends)
  apply hread.bind
  intro store text _ hsome
  obtain ⟨found, rfl⟩ := Option.isSome_iff_exists.mp hsome
  exact safe_pure fun _ _ => trivial

end Run

end ChainScript
