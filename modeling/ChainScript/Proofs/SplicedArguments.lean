import ChainScript.Proofs.CallLimits
import ChainScript.Proofs.ContainerLaws

/-
Binding arguments in advance.

Composing a function with an array splices the entries of the array into the
arguments that the function has bound, and a call splices its own arguments in
last.  Splicing hands positions out anew, but overwrites labels in place, so it
makes no difference whether entries are spliced one after another into what is
there already, or first into an empty container and then all together.  This is
why arguments that are bound in advance arrive as if they had been given in the
call.
-/

namespace ChainScript

namespace Container

variable {α : Type} {base container : Container α}

/-- Once a label has its place, it can be set before or after an entry with
another key is spliced in. -/
theorem set_splice {name : String} (value : α) {entry : Key × α}
    (hne : entry.1 ≠ .badge name) (hplaced : .badge name ∈ base.keys) :
    (base.set (.badge name) value).splice entry =
      (base.splice entry).set (.badge name) value := by
  obtain ⟨other | _, more⟩ := entry
  · exact set_comm value more hne hplaced
  · unfold splice append
    simp only [next_set_badge]
    cases base.next with
    | none => rfl
    | some free => exact set_comm value more nofun hplaced

theorem keys_subset_splice (entry : Key × α) :
    base.keys ⊆ (base.splice entry).keys := by
  intro key hkey
  unfold splice append
  split
  · split
    · exact mem_keys_set.mpr (.inl hkey)
    · exact hkey
  · exact mem_keys_set.mpr (.inl hkey)

theorem set_expand {name : String} (value : α) {entries : List (Key × α)}
    (hnew : .badge name ∉ entries.map Prod.fst)
    (hplaced : .badge name ∈ base.keys) :
    (base.set (.badge name) value).expand entries =
      (base.expand entries).set (.badge name) value := by
  induction entries generalizing base with
  | nil => rfl
  | cons entry rest ih =>
      rw [List.map_cons, List.mem_cons, not_or] at hnew
      have hcomm := set_splice value (Ne.symm hnew.1) hplaced
      have hrest := ih hnew.2 (keys_subset_splice entry hplaced)
      exact (congrArg (expand · rest) hcomm).trans hrest

/-- Splicing entries in after one of their labels was set is the same as
setting this label last. -/
theorem expand_setEntry {name : String} (value : α)
    {entries : List (Key × α)} (hnodup : (entries.map Prod.fst).Nodup) :
    base.expand (setEntry (.badge name) value entries) =
      (base.expand entries).set (.badge name) value := by
  induction entries generalizing base with
  | nil => rfl
  | cons entry rest ih =>
      obtain ⟨first, old⟩ := entry
      rw [List.map_cons, List.nodup_cons] at hnodup
      by_cases heq : first = .badge name
      · subst heq
        have hplaced : .badge name ∈ (base.set (.badge name) old).keys :=
          mem_keys_set.mpr (.inr rfl)
        have hlast := set_expand value hnodup.1 hplaced
        rw [set_set] at hlast
        rw [setEntry, if_pos rfl]
        exact hlast
      · rw [setEntry, if_neg heq]
        exact ih hnodup.2

/-- A container that some entries were spliced into, and nothing else.  Its
positions stand below the next one, which is at most the number of the
entries. -/
structure Spliced (count : Nat) (container : Container α) : Prop where
  distinct : container.Distinct
  used : ∀ key ∈ container.keys, key.taken ≤ taken container.next
  few : taken container.next ≤ count

namespace Spliced

variable {count : Nat}

theorem empty : (Container.empty : Container α).Spliced 0 where
  distinct := distinct_empty
  used := fun _ hkey => absurd hkey List.not_mem_nil
  few := Nat.le_refl 0

theorem set (hspliced : container.Spliced count) {key : Key} (value : α)
    (hkey : key.taken ≤ count + 1) :
    (container.set key value).Spliced (count + 1) where
  distinct := hspliced.distinct.set key value
  used := by
    intro other hother
    rw [taken_next_set]
    rcases mem_keys_set.mp hother with hold | rfl
    · exact Nat.le_trans (hspliced.used other hold) (Nat.le_max_right _ _)
    · exact Nat.le_max_left _ _
  few := by
    rw [taken_next_set]
    exact Nat.max_le.mpr ⟨hkey, Nat.le_succ_of_le hspliced.few⟩

theorem splice (hspliced : container.Spliced count) (entry : Key × α) :
    (container.splice entry).Spliced (count + 1) := by
  unfold Container.splice
  split
  · have hfew := hspliced.few
    cases hnext : container.next with
    | none =>
        rw [append_of_full hnext]
        exact ⟨hspliced.distinct, hspliced.used, Nat.le_succ_of_le hfew⟩
    | some free =>
        rw [append_of_next hnext]
        rw [hnext, taken] at hfew
        exact hspliced.set entry.2 (Nat.succ_le_succ hfew)
  · next name hname =>
      exact hspliced.set entry.2 (hname ▸ Nat.zero_le _)

/-- One more entry has the same effect on another container as the entries
before it and then this one. -/
theorem expand_splice (hspliced : container.Spliced count)
    (hfew : count < UInt64.size) (entry : Key × α) :
    base.expand (container.splice entry).entries =
      (base.expand container.entries).splice entry := by
  obtain ⟨name | position, value⟩ := entry
  · exact expand_setEntry value hspliced.distinct
  · cases hnext : container.next with
    | none =>
        have hfull := hspliced.few
        rw [hnext, taken] at hfull
        exact absurd hfull (Nat.not_le.mpr hfew)
    | some free =>
        have hnew : .index free ∉ container.keys := by
          intro hold
          have hused := hspliced.used _ hold
          rw [hnext, taken, Key.taken] at hused
          exact Nat.not_succ_le_self _ hused
        have hentries : (container.splice (.index position, value)).entries =
            container.entries ++ [(.index free, value)] := by
          simp only [Container.splice, append_of_next hnext]
          exact setEntry_of_not_mem value hnew
        rw [hentries, expand_append]
        rfl

/-- The same for several entries. -/
theorem expand_expand (hspliced : container.Spliced count)
    (entries : List (Key × α))
    (hfew : count + entries.length ≤ UInt64.size) :
    base.expand (container.expand entries).entries =
      (base.expand container.entries).expand entries := by
  induction entries generalizing container count with
  | nil => rfl
  | cons entry rest ih =>
      rw [List.length_cons] at hfew
      have hrest := ih (hspliced.splice entry) (by omega)
      rw [hspliced.expand_splice (by omega) entry] at hrest
      exact hrest

end Spliced

end Container

/-- The entries of some arrays, and then those of a container, spliced into an
empty container in turn. -/
def Heap.splicedArgs (heap : Heap) (arrays : List Chain)
    (args : Container Value) : Container Value :=
  let arrays := arrays.foldl (fun whole : Container Value => fun chain =>
    whole.expand (heap.flatten chain).entries) .empty
  arrays.expand args.entries

/-- A value composed with some arrays in turn. -/
def Heap.composeAll (heap : Heap) (left : Value) :
    List Chain → Except Cause (Value × Heap)
  | [] => .ok (left, heap)
  | chain :: rest => do
      let (composed, heap) ← heap.compose left (.array chain)
      heap.composeAll composed rest

namespace Heap

variable {heap : Heap} {id : FunctionId} {function : Function}

/-- The entries of some arrays in turn. -/
def arrayEntries (heap : Heap) (arrays : List Chain) : List (Key × Value) :=
  arrays.flatMap fun chain => (heap.flatten chain).entries

/-- Functions do not matter to arrays. -/
theorem arrayEntries_addFunction (heap : Heap) (function : Function)
    (arrays : List Chain) :
    (heap.addFunction function).2.arrayEntries arrays =
      heap.arrayEntries arrays := by
  have hflatten : ∀ chain, (heap.addFunction function).2.flatten chain =
      heap.flatten chain :=
    fun _ => mergeFrames_congr fun id _ => heap.frame_addFunction function id
  simp only [arrayEntries, hflatten]

theorem splicedArgs_eq (heap : Heap) (arrays : List Chain)
    (args : Container Value) :
    heap.splicedArgs arrays args =
      Container.empty.expand (heap.arrayEntries arrays ++ args.entries) := by
  have hfold : ∀ whole : Container Value,
      arrays.foldl (fun whole : Container Value => fun chain =>
          whole.expand (heap.flatten chain).entries) whole =
        whole.expand (heap.arrayEntries arrays) := by
    induction arrays with
    | nil => exact fun _ => rfl
    | cons chain rest ih =>
        intro whole
        rw [List.foldl_cons, ih, ← Container.expand_append]
        rfl
  simp only [splicedArgs, hfold, Container.expand_append]

/-- A function stays what it is when functions are added. -/
theorem function?_of_grown {after : Heap}
    (hgrown : heap.functions.toList <+: after.functions.toList)
    (hfunction : heap.function? id = some function) :
    after.function? id = some function := by
  obtain ⟨added, hadded⟩ := hgrown
  rw [function?, ← Array.getElem?_toList] at hfunction ⊢
  obtain ⟨hlt, -⟩ := List.getElem?_eq_some_iff.mp hfunction
  rw [← hadded, List.getElem?_append_left hlt, hfunction]

/-- Composing a function with an array makes one more function, and changes
nothing that is there. -/
theorem compose_function (hfunction : heap.function? id = some function)
    (chain : Chain) :
    heap.compose (.function id) (.array chain) =
      .ok (.function heap.functions.size,
        (heap.addFunction (function.withBound (heap.flatten chain))).2) := by
  simp only [compose, bindFunction, hfunction]
  rfl

/-- Composing a function with arrays in turn makes a function that has bound
the entries of all of them, and changes nothing that is there. -/
theorem composeAll_function (hfunction : heap.function? id = some function)
    (arrays : List Chain) :
    ∃ composed after,
      heap.composeAll (.function id) arrays = .ok (.function composed, after) ∧
        heap.functions.toList <+: after.functions.toList ∧
        after.function? composed = some { function with
          bound := function.bound.expand (heap.arrayEntries arrays) } := by
  induction arrays generalizing heap id function with
  | nil => exact ⟨id, heap, rfl, List.prefix_rfl, hfunction⟩
  | cons chain rest ih =>
      let bound := function.withBound (heap.flatten chain)
      obtain ⟨composed, after, hrest, hgrown, hmade⟩ :=
        ih (heap.function?_addFunction_self bound)
      have hlater : heap.functions.toList <+:
          (heap.addFunction bound).2.functions.toList := by
        simp [addFunction]
      refine ⟨composed, after, ?_, hlater.trans hgrown, ?_⟩
      · rw [composeAll, compose_function hfunction]
        exact hrest
      · rw [hmade, heap.arrayEntries_addFunction]
        simp only [bound, Function.withBound, ← Container.expand_append]
        rfl

/-- Bound in advance or given in the call, arguments arrive alike. -/
theorem expand_splicedArgs (bound : Container Value) {arrays : List Chain}
    {args : Container Value}
    (hfew : (heap.arrayEntries arrays).length + args.size < UInt64.size) :
    bound.expand (heap.splicedArgs arrays args).entries =
      (bound.expand (heap.arrayEntries arrays)).expand args.entries := by
  have hlength :
      (heap.arrayEntries arrays ++ args.entries).length < UInt64.size := by
    rw [List.length_append]
    exact hfew
  rw [splicedArgs_eq, ← Container.expand_append]
  exact Container.Spliced.empty.expand_expand _ (by omega)

end Heap

/-- A function composed with arrays in turn is called with some arguments just
as the function itself is called with the entries of the arrays and the
arguments together.  It hands the same container to the code of the function,
and so does the same, at any time from then on.  And the function itself is
what it was. -/
theorem prebinding_splices {World : Type} (natives : Natives World)
    {heap : Heap} {id : FunctionId} {function : Function}
    (hfunction : heap.function? id = some function) (arrays : List Chain)
    (args : Container Value)
    (hfew : (heap.arrayEntries arrays).length + args.size < UInt64.size) :
    ∃ composed after whole,
      heap.composeAll (.function id) arrays = .ok (.function composed, after) ∧
        after.function? id = some function ∧
        after.function? composed = some whole ∧
        whole.name = function.name ∧ whole.body = function.body ∧
        whole.bound.expand args.entries =
          function.bound.expand (heap.splicedArgs arrays args).entries ∧
        ∀ (worker : Worker World) (site : Option Span)
          (machine : Machine World),
          after.functions.toList <+: machine.heap.functions.toList →
            worker.evalCall natives composed args site machine =
              worker.evalCall natives id (heap.splicedArgs arrays args) site
                machine := by
  obtain ⟨composed, after, hcompose, hgrown, hmade⟩ :=
    Heap.composeAll_function hfunction arrays
  have harrive := Heap.expand_splicedArgs function.bound hfew
  have hold := Heap.function?_of_grown hgrown hfunction
  refine ⟨composed, after, _, hcompose, hold, hmade, rfl, rfl, harrive.symm,
    fun worker site machine hlater => ?_⟩
  rw [Worker.evalCall_of_some natives worker args site
      (Heap.function?_of_grown hlater hmade),
    Worker.evalCall_of_some natives worker _ site
      (Heap.function?_of_grown hlater hold)]
  simp only [Worker.entered, harrive]

/-- A function of the host that has bound two arguments, and two arrays. -/
def preboundHeap : Heap where
  frames := #[.ofPairs [(.badge "x", .int 3), (.index 0, .int 10)],
    .ofPairs [(.index 7, .int 20), (.badge "y", .int 4)]]
  functions := #[⟨"record", .native,
    .ofPairs [(.index 2, .int 1), (.badge "x", .int 2)]⟩]

/-- The label `x` is bound already and `y` is given twice; both keep their
place. -/
theorem prebinding_splices_overwriting :
    let args := .ofPairs [(.badge "y", .int 5), (.index 0, .int 30)]
    ∃ composed after whole,
      preboundHeap.composeAll (.function 0) [[⟨0, 0⟩], [⟨1, 1⟩]] =
          .ok (.function composed, after) ∧
        after.function? composed = some whole ∧
        (whole.bound.expand args.entries).entries =
          [(.index 2, .int 1), (.badge "x", .int 3), (.index 3, .int 10),
            (.index 4, .int 20), (.badge "y", .int 5), (.index 5, .int 30)] ∧
        ∀ (worker : Worker Unit) (machine : Machine Unit),
          machine.heap = after →
            worker.evalCall Host.silent.natives composed args none machine =
              worker.evalCall Host.silent.natives 0
                (preboundHeap.splicedArgs [[⟨0, 0⟩], [⟨1, 1⟩]] args) none
                machine := by
  intro args
  have hfunction : preboundHeap.function? 0 = some ⟨"record", .native,
      .ofPairs [(.index 2, .int 1), (.badge "x", .int 2)]⟩ :=
    rfl
  obtain ⟨composed, after, whole, hcompose, -, hwhole, -, -, harrive, hcall⟩ :=
    prebinding_splices Host.silent.natives hfunction
      [[⟨0, 0⟩], [⟨1, 1⟩]] args (by decide +kernel)
  refine ⟨composed, after, whole, hcompose, hwhole, ?_,
    fun worker machine hheap =>
      hcall worker none machine (hheap ▸ List.prefix_rfl)⟩
  rw [harrive]
  decide +kernel

end ChainScript
