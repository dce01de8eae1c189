import ChainScript.Proofs.ContainerLaws

/-
The positions that a container hands out.

Every container is made by setting keys, appending values and removing keys.
Whatever the order of these steps, the next position is the one after the
largest that was ever set, so a position that an append hands out was never in
use before, not even by an entry that has been removed.
-/

namespace ChainScript

namespace Container

variable {α : Type}

/-- The last position of all. -/
def lastPosition : UInt64 := 18446744073709551615

/-- How a container begins. -/
inductive Origin (α : Type) where
  | empty
  | values (content : List α)
  | pairs (content : List (Key × α))

/-- A change that the holder of a container can make. -/
inductive Change (α : Type) where
  | set (key : Key) (value : α)
  | append (value : α)
  | remove (key : Key)
  | expand (entries : List (Key × α))

/-- The smallest changes, which the others are made of. -/
inductive Step (α : Type) where
  | set (key : Key) (value : α)
  | append (value : α)
  | remove (key : Key)

def Origin.container : Origin α → Container α
  | .empty => .empty
  | .values content => .ofValues content
  | .pairs content => .ofPairs content

def Change.apply (container : Container α) : Change α → Container α
  | .set key value => container.set key value
  | .append value => (container.append value).2
  | .remove key => container.remove key
  | .expand entries => container.expand entries

def Step.apply (container : Container α) : Step α → Container α
  | .set key value => container.set key value
  | .append value => (container.append value).2
  | .remove key => container.remove key

/-- The container after some changes. -/
def run (container : Container α) (changes : List (Change α)) : Container α :=
  changes.foldl Change.apply container

/-- The container after some steps. -/
def after (container : Container α) (steps : List (Step α)) : Container α :=
  steps.foldl Step.apply container

/-- The step that splices an entry in. -/
def Step.ofEntry (entry : Key × α) : Step α :=
  match entry.1 with
  | .index _ => .append entry.2
  | .badge _ => .set entry.1 entry.2

def Origin.steps : Origin α → List (Step α)
  | .empty => []
  | .values content => content.map .append
  | .pairs content => content.map fun pair => .set pair.1 pair.2

def Change.steps : Change α → List (Step α)
  | .set key value => [.set key value]
  | .append value => [.append value]
  | .remove key => [.remove key]
  | .expand entries => entries.map .ofEntry

/-- The keys that a step sets. -/
def Step.keysSet (container : Container α) : Step α → List Key
  | .set key _ => [key]
  | .append value => (container.append value).1.toList
  | .remove _ => []

/-- All keys that some steps set, whether or not they are removed again. -/
def keysSet (container : Container α) : List (Step α) → List Key
  | [] => []
  | step :: rest =>
      step.keysSet container ++ (step.apply container).keysSet rest

/-- All keys that were ever set on the way to a container. -/
def Origin.keysEverSet (origin : Origin α) (changes : List (Change α)) :
    List Key :=
  Container.empty.keysSet (origin.steps ++ changes.flatMap Change.steps)

theorem after_append (container : Container α) (first second : List (Step α)) :
    container.after (first ++ second) = (container.after first).after second :=
  List.foldl_append

theorem apply_ofEntry (container : Container α) (entry : Key × α) :
    (Step.ofEntry entry).apply container = container.splice entry := by
  obtain ⟨key, value⟩ := entry
  cases key <;> rfl

theorem Change.after_steps (container : Container α) (change : Change α) :
    container.after change.steps = change.apply container := by
  cases change with
  | set key value => rfl
  | append value => rfl
  | remove key => rfl
  | expand entries =>
      simp only [Change.steps, Container.after, List.foldl_map, apply_ofEntry]
      rfl

theorem Origin.after_steps (origin : Origin α) :
    Container.empty.after origin.steps = origin.container := by
  cases origin with
  | empty => rfl
  | values content => simp only [steps, after, List.foldl_map]; rfl
  | pairs content => simp only [steps, after, List.foldl_map]; rfl

theorem after_flatMap_steps (container : Container α)
    (changes : List (Change α)) :
    container.after (changes.flatMap Change.steps) = container.run changes := by
  induction changes generalizing container with
  | nil => rfl
  | cons change rest ih =>
      rw [List.flatMap_cons, after_append, change.after_steps, ih]
      rfl

/-- How many positions some keys use up. -/
def takenBy : List Key → Nat
  | [] => 0
  | key :: rest => max key.taken (takenBy rest)

theorem takenBy_append (first second : List Key) :
    takenBy (first ++ second) = max (takenBy first) (takenBy second) := by
  induction first with
  | nil => simp [takenBy]
  | cons key rest ih => simp [takenBy, ih, Nat.max_assoc]

theorem taken_le_takenBy {key : Key} {keys : List Key} (hkey : key ∈ keys) :
    key.taken ≤ takenBy keys := by
  induction keys with
  | nil => cases hkey
  | cons first rest ih =>
      rcases List.mem_cons.mp hkey with rfl | hrest
      · exact Nat.le_max_left _ _
      · exact Nat.le_trans (ih hrest) (Nat.le_max_right _ _)

/-- Some key uses up the last of the positions that are used up. -/
theorem takenBy_attained (keys : List Key) :
    takenBy keys = 0 ∨
      ∃ position, .index position ∈ keys ∧
        takenBy keys = position.toNat + 1 := by
  induction keys with
  | nil => exact .inl rfl
  | cons first rest ih =>
      rcases Nat.le_total first.taken (takenBy rest) with hle | hle
      · rw [takenBy, Nat.max_eq_right hle]
        refine ih.imp_right ?_
        rintro ⟨position, hposition, heq⟩
        exact ⟨position, List.mem_cons_of_mem _ hposition, heq⟩
      · rw [takenBy, Nat.max_eq_left hle]
        cases first with
        | badge name => exact .inl rfl
        | index position => exact .inr ⟨position, List.mem_cons_self, rfl⟩

/-- The keys of the container are distinct and among those that were set, and
all positions that were set count as used. -/
structure Numbered (used : List Key) (container : Container α) : Prop where
  distinct : container.Distinct
  known : ∀ key ∈ container.keys, key ∈ used
  counted : taken container.next = takenBy used

namespace Numbered

variable {used : List Key} {container : Container α}

theorem empty : (Container.empty : Container α).Numbered [] where
  distinct := distinct_empty
  known := fun _ hkey => hkey
  counted := rfl

theorem set (hnumbered : container.Numbered used) (key : Key) (value : α) :
    (container.set key value).Numbered (used ++ [key]) where
  distinct := hnumbered.distinct.set key value
  known := by
    intro other hother
    rcases mem_keys_set.mp hother with hold | rfl
    · exact List.mem_append_left _ (hnumbered.known other hold)
    · exact List.mem_append_right _ List.mem_cons_self
  counted := by
    rw [taken_next_set, takenBy_append, hnumbered.counted, Nat.max_comm]
    simp [takenBy]

theorem remove (hnumbered : container.Numbered used) (key : Key) :
    (container.remove key).Numbered used where
  distinct := hnumbered.distinct.remove key
  known := fun other hother => hnumbered.known other
    ((List.eraseP_sublist.map Prod.fst).subset hother)
  counted := hnumbered.counted

theorem step (hnumbered : container.Numbered used) (step : Step α) :
    (step.apply container).Numbered (used ++ step.keysSet container) := by
  cases step with
  | set key value => exact hnumbered.set key value
  | remove key => simpa [Step.apply, Step.keysSet] using hnumbered.remove key
  | append value =>
      cases hnext : container.next with
      | some position =>
          simpa [Step.apply, Step.keysSet, append_of_next hnext] using
            hnumbered.set (.index position) value
      | none =>
          simpa [Step.apply, Step.keysSet, append_of_full hnext] using
            hnumbered

theorem after (hnumbered : container.Numbered used) (steps : List (Step α)) :
    (container.after steps).Numbered (used ++ container.keysSet steps) := by
  induction steps generalizing container used with
  | nil => simpa [keysSet, Container.after] using hnumbered
  | cons step rest ih =>
      simpa [keysSet, Container.after] using ih (hnumbered.step step)

theorem run (origin : Origin α) (changes : List (Change α)) :
    (origin.container.run changes).Numbered (origin.keysEverSet changes) := by
  have hafter := Numbered.empty.after
    (origin.steps ++ changes.flatMap Change.steps)
  rwa [after_append, origin.after_steps, after_flatMap_steps] at hafter

theorem lt_next (hnumbered : container.Numbered used) {position free : UInt64}
    (hused : .index position ∈ used) (hnext : container.next = some free) :
    position < free := by
  have hcounted := hnumbered.counted
  have hle := taken_le_takenBy hused
  rw [hnext, taken] at hcounted
  rw [Key.taken] at hle
  exact UInt64.lt_iff_toNat_lt.mpr (by omega)

theorem next_eq_none_iff (hnumbered : container.Numbered used) :
    container.next = none ↔ .index lastPosition ∈ used := by
  have hlast : lastPosition.toNat + 1 = UInt64.size := rfl
  constructor
  · intro hnext
    have hcounted := hnumbered.counted
    rw [hnext, taken] at hcounted
    rcases takenBy_attained used with hzero | ⟨position, hused, heq⟩
    · exact absurd (hcounted.trans hzero) (by decide)
    · have hposition : position = lastPosition := UInt64.toNat_inj.mp (by omega)
      exact hposition ▸ hused
  · intro hused
    cases hnext : container.next with
    | none => rfl
    | some free =>
        have hlt := UInt64.lt_iff_toNat_lt.mp (hnumbered.lt_next hused hnext)
        have hfree := free.toNat_lt
        rw [UInt64.size] at hlast
        omega

/-- The next position is one more than the largest position ever set, or zero
when no position was set. -/
theorem next_attained (hnumbered : container.Numbered used) {free : UInt64}
    (hnext : container.next = some free) :
    free = 0 ∨
      ∃ position, .index position ∈ used ∧
        free.toNat = position.toNat + 1 := by
  have hcounted := hnumbered.counted
  rw [hnext, taken] at hcounted
  rw [hcounted]
  refine (takenBy_attained used).imp_left fun hzero => ?_
  exact UInt64.toNat_inj.mp (hcounted.trans hzero)

/-- An append adds a new position at the end, or nothing. -/
theorem append_cases (hnumbered : container.Numbered used) (value : α) :
    (∃ position, container.next = some position ∧
      container.append value =
        (some (.index position),
          ⟨container.entries ++ [(.index position, value)],
            successor? position⟩)) ∨
      container.next = none ∧ container.append value = (none, container) := by
  cases hnext : container.next with
  | none => exact .inr ⟨rfl, append_of_full hnext value⟩
  | some position =>
      have hnew : .index position ∉ container.keys := fun hold =>
        UInt64.lt_irrefl _ (hnumbered.lt_next (hnumbered.known _ hold) hnext)
      refine .inl ⟨position, rfl, ?_⟩
      rw [append_of_next hnext, Container.set, setEntry_of_not_mem value hnew,
        hnext]
      simp [nextAfter]

end Numbered

/-- No step makes the next position smaller. -/
theorem taken_le_step (container : Container α) (step : Step α) :
    taken container.next ≤ taken (step.apply container).next := by
  cases step with
  | set key value =>
      simp only [Step.apply, taken_next_set]
      exact Nat.le_max_right _ _
  | remove key => exact Nat.le_refl _
  | append value =>
      cases hnext : container.next with
      | none => simp [Step.apply, append_of_full hnext, hnext]
      | some position =>
          simp only [Step.apply, append_of_next hnext, taken_next_set, hnext]
          exact Nat.le_max_right _ _

theorem taken_le_after (container : Container α) (steps : List (Step α)) :
    taken container.next ≤ taken (container.after steps).next := by
  induction steps generalizing container with
  | nil => exact Nat.le_refl _
  | cons step rest ih =>
      exact Nat.le_trans (container.taken_le_step step)
        (ih (step.apply container))

/-- Some next position after more changes was preceded by one that is not
larger. -/
theorem next_le_run {container : Container α} {changes : List (Change α)}
    {later : UInt64} (hlater : (container.run changes).next = some later) :
    ∃ free, container.next = some free ∧ free ≤ later := by
  have hle := container.taken_le_after (changes.flatMap Change.steps)
  rw [after_flatMap_steps, hlater] at hle
  cases hnext : container.next with
  | some free =>
      rw [hnext] at hle
      exact ⟨free, rfl, UInt64.le_iff_toNat_le.mpr hle⟩
  | none =>
      rw [hnext] at hle
      exact absurd hle (Nat.not_le_of_gt later.toNat_lt)

/-- Whatever changes are made, the keys are distinct, and the next position is
the first one after all that were ever set; there is none once the last
position of all has been set. -/
theorem positions_handed_out_once (origin : Origin α)
    (changes : List (Change α)) :
    let container := origin.container.run changes
    let used := origin.keysEverSet changes
    container.keys.Nodup ∧
      (∀ position free, .index position ∈ container.keys →
        container.next = some free → position < free) ∧
      (container.next = none ↔ .index lastPosition ∈ used) ∧
      (∀ free, container.next = some free →
        (∀ position, .index position ∈ used → position < free) ∧
          (free = 0 ∨
            ∃ position, .index position ∈ used ∧
              free.toNat = position.toNat + 1)) ∧
      (∀ more later, (container.run more).next = some later →
        ∃ free, container.next = some free ∧ free ≤ later) ∧
      (∀ value,
        (∃ position,
          container.append value =
            (some (.index position),
              ⟨container.entries ++ [(.index position, value)],
                successor? position⟩) ∧
          ∀ earlier, .index earlier ∈ used → earlier < position) ∨
        .index lastPosition ∈ used ∧
          container.append value = (none, container)) ∧
      (∀ key value, key ∈ container.keys →
        (container.set key value).entries =
          container.entries.map fun entry =>
            if entry.1 = key then (key, value) else entry) ∧
      ∀ key, (container.remove key).entries =
        container.entries.filter fun entry => entry.1 ≠ key := by
  intro container used
  have hnumbered : container.Numbered used := .run origin changes
  refine ⟨hnumbered.distinct, ?_, hnumbered.next_eq_none_iff, ?_, ?_, ?_, ?_,
    hnumbered.distinct.entries_remove⟩
  · intro position free hkey hnext
    exact hnumbered.lt_next (hnumbered.known _ hkey) hnext
  · intro free hnext
    exact ⟨fun position hused => hnumbered.lt_next hused hnext,
      hnumbered.next_attained hnext⟩
  · exact fun more later hlater => next_le_run hlater
  · intro value
    rcases hnumbered.append_cases value with
      ⟨position, hnext, happend⟩ | ⟨hfull, happend⟩
    · exact .inl ⟨position, happend, fun earlier hused =>
        hnumbered.lt_next hused hnext⟩
    · exact .inr ⟨hnumbered.next_eq_none_iff.mp hfull, happend⟩
  · exact fun key value hold =>
      setEntry_of_mem value hnumbered.distinct hold

/-- A removed entry leaves a gap that is not filled. -/
example :
    (empty.run [.set (.index 5) 'a', .remove (.index 5),
      .append 'b']).entries = [(.index 6, 'b')] := by
  decide

end Container

end ChainScript
