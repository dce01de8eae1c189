import ChainScript.Container
import Mathlib.Data.List.Induction

/-
Laws of containers.

Setting a key replaces its entry or adds one at the end, so the keys stay
distinct.  Setting commutes with setting another key once the first one has its
place, which is why setting the entries of a container in order has the same
effect as the changes that made these entries.
-/

namespace ChainScript

/-- How many positions are used up before the next one to hand out. -/
def taken : Option UInt64 → Nat
  | some free => free.toNat
  | none => UInt64.size

/-- How many positions a key uses up. -/
def Key.taken : Key → Nat
  | .index position => position.toNat + 1
  | .badge _ => 0

theorem taken_injective {first second : Option UInt64}
    (htaken : taken first = taken second) : first = second := by
  cases first with
  | none =>
      cases second with
      | none => rfl
      | some free => exact absurd htaken (Nat.ne_of_gt free.toNat_lt)
  | some free =>
      cases second with
      | none => exact absurd htaken (Nat.ne_of_lt free.toNat_lt)
      | some other => exact congrArg some (UInt64.toNat_inj.mp htaken)

theorem taken_successor? (position : UInt64) :
    taken (successor? position) = position.toNat + 1 := by
  have hlt := position.toNat_lt
  unfold successor?
  split
  · next hfits =>
      have hone : (1 : UInt64).toNat = 1 := rfl
      simp only [taken, UInt64.toNat_add, hone]
      exact Nat.mod_eq_of_lt hfits
  · next hlast =>
      simp only [taken, UInt64.size] at hlast ⊢
      omega

/-- Setting a key uses up the positions that the key uses up. -/
theorem taken_nextAfter (key : Key) (next : Option UInt64) :
    taken (Container.nextAfter key next) = max key.taken (taken next) := by
  cases key with
  | badge name => simp [Container.nextAfter, Key.taken]
  | index position =>
      have hlt := position.toNat_lt
      cases next with
      | none =>
          simp only [Container.nextAfter, Key.taken, taken, UInt64.size]
          omega
      | some free =>
          simp only [Container.nextAfter, UInt64.le_iff_toNat_le]
          split
          · next hle =>
              rw [taken_successor?, Key.taken, taken]
              omega
          · next hlt =>
              simp only [Key.taken, taken]
              omega

section Entries

variable {α : Type} {key other : Key} {entries : List (Key × α)}

/-- A new key goes to the end. -/
theorem setEntry_of_not_mem (value : α)
    (hnew : key ∉ entries.map Prod.fst) :
    setEntry key value entries = entries ++ [(key, value)] := by
  induction entries with
  | nil => rfl
  | cons entry rest ih =>
      obtain ⟨first, old⟩ := entry
      rw [List.map_cons, List.mem_cons, not_or] at hnew
      have hne : first ≠ key := fun h => hnew.1 h.symm
      simp [setEntry, hne, ih hnew.2]

/-- An old key keeps its place, and the other entries stay as they are. -/
theorem setEntry_of_mem (value : α)
    (hnodup : (entries.map Prod.fst).Nodup)
    (hold : key ∈ entries.map Prod.fst) :
    setEntry key value entries =
      entries.map fun entry =>
        if entry.1 = key then (key, value) else entry := by
  induction entries with
  | nil => cases hold
  | cons entry rest ih =>
      obtain ⟨first, old⟩ := entry
      rw [List.map_cons, List.nodup_cons] at hnodup
      by_cases heq : first = key
      · subst heq
        have hrest : ∀ entry ∈ rest,
            (if entry.1 = first then (first, value) else entry) = entry := by
          intro entry hentry
          have hne : entry.1 ≠ first := fun h =>
            hnodup.1 (List.mem_map.mpr ⟨entry, hentry, h⟩)
          simp [hne]
        simp [setEntry, List.map_congr_left hrest]
      · have hrest : key ∈ rest.map Prod.fst := by
          rcases List.mem_cons.mp hold with hfirst | hrest
          · exact absurd hfirst.symm heq
          · exact hrest
        simp [setEntry, heq, ih hnodup.2 hrest]

/-- Among distinct keys, every entry is the one that its key finds. -/
theorem valueAt?_of_mem {value : α} (hnodup : (entries.map Prod.fst).Nodup)
    (hentry : (key, value) ∈ entries) : valueAt? key entries = some value := by
  induction entries with
  | nil => cases hentry
  | cons entry rest ih =>
      obtain ⟨first, other⟩ := entry
      rw [List.map_cons, List.nodup_cons] at hnodup
      rcases List.mem_cons.mp hentry with hfirst | hmore
      · cases hfirst
        simp [valueAt?]
      · have hne : first ≠ key := fun heq =>
          hnodup.1 (List.mem_map.mpr ⟨_, hmore, heq.symm⟩)
        simp [valueAt?, hne, ih hnodup.2 hmore]

theorem setEntry_setEntry (old value : α) :
    setEntry key value (setEntry key old entries) =
      setEntry key value entries := by
  induction entries with
  | nil => simp [setEntry]
  | cons entry rest ih =>
      obtain ⟨first, current⟩ := entry
      by_cases heq : first = key <;> simp [setEntry, heq, ih]

/-- Once a key has its place, setting it commutes with setting another key. -/
theorem setEntry_comm (value more : α) (hne : other ≠ key)
    (hold : key ∈ entries.map Prod.fst) :
    setEntry other more (setEntry key value entries) =
      setEntry key value (setEntry other more entries) := by
  induction entries with
  | nil => cases hold
  | cons entry rest ih =>
      obtain ⟨first, current⟩ := entry
      by_cases hkey : first = key
      · simp [setEntry, hkey, hne.symm]
      · have hrest : key ∈ rest.map Prod.fst := by
          rcases List.mem_cons.mp hold with hfirst | hrest
          · exact absurd hfirst.symm hkey
          · exact hrest
        by_cases hother : first = other
        · simp [setEntry, hother, hne]
        · simp [setEntry, hkey, hother, ih hrest]

end Entries

namespace Container

variable {α : Type}

@[simp] theorem taken_next_set (container : Container α) (key : Key)
    (value : α) :
    taken (container.set key value).next =
      max key.taken (taken container.next) :=
  taken_nextAfter key container.next

/-- Entries and the number of used positions make up a container. -/
theorem ext_taken {first second : Container α}
    (hentries : first.entries = second.entries)
    (htaken : taken first.next = taken second.next) : first = second := by
  obtain ⟨entries, next⟩ := first
  obtain ⟨others, free⟩ := second
  have hnext : next = free := taken_injective htaken
  cases hentries
  cases hnext
  rfl

theorem mem_keys_set {container : Container α} {key other : Key} {value : α} :
    other ∈ (container.set key value).keys ↔
      other ∈ container.keys ∨ other = key := by
  rw [keys_set]
  split
  · next hold =>
      constructor
      · exact .inl
      · rintro (hother | rfl)
        · exact hother
        · exact hold
  · simp

/-- The containers whose keys are distinct. -/
def Distinct (container : Container α) : Prop :=
  container.keys.Nodup

instance (container : Container α) : Decidable container.Distinct :=
  inferInstanceAs (Decidable container.keys.Nodup)

theorem distinct_empty : (empty : Container α).Distinct :=
  List.nodup_nil

namespace Distinct

variable {container : Container α}

theorem set (hdistinct : container.Distinct) (key : Key) (value : α) :
    (container.set key value).Distinct := by
  unfold Distinct
  rw [keys_set]
  split
  · exact hdistinct
  · next hnew =>
      refine List.nodup_append.mpr ⟨hdistinct, by simp, ?_⟩
      rintro old hold new hkey rfl
      exact hnew (List.mem_singleton.mp hkey ▸ hold)

theorem append (hdistinct : container.Distinct) (value : α) :
    (container.append value).2.Distinct := by
  unfold Container.append
  split
  · exact hdistinct.set _ value
  · exact hdistinct

theorem remove (hdistinct : container.Distinct) (key : Key) :
    (container.remove key).Distinct :=
  (List.Sublist.map Prod.fst List.eraseP_sublist).nodup hdistinct

theorem splice (hdistinct : container.Distinct) (entry : Key × α) :
    (container.splice entry).Distinct := by
  unfold Container.splice
  split
  · exact hdistinct.append entry.2
  · exact hdistinct.set entry.1 entry.2

theorem expand (hdistinct : container.Distinct) (entries : List (Key × α)) :
    (container.expand entries).Distinct := by
  induction entries generalizing container with
  | nil => exact hdistinct
  | cons entry rest ih => exact ih (hdistinct.splice entry)

theorem setAll (hdistinct : container.Distinct) (entries : List (Key × α)) :
    (container.setAll entries).Distinct := by
  induction entries generalizing container with
  | nil => exact hdistinct
  | cons entry rest ih => exact ih (hdistinct.set entry.1 entry.2)

/-- Removing a key takes out its entry and nothing else. -/
theorem entries_remove (hdistinct : container.Distinct) (key : Key) :
    (container.remove key).entries =
      container.entries.filter fun entry => entry.1 ≠ key := by
  obtain ⟨entries, next⟩ := container
  simp only [Distinct, keys, Container.remove] at hdistinct ⊢
  induction entries with
  | nil => rfl
  | cons entry rest ih =>
      rw [List.map_cons, List.nodup_cons] at hdistinct
      by_cases heq : entry.1 = key
      · have hrest : ∀ other ∈ rest, other.1 ≠ key := fun other hother h =>
          hdistinct.1 (List.mem_map.mpr ⟨other, hother, h.trans heq.symm⟩)
        have hkept : rest.filter (fun other => other.1 ≠ key) = rest :=
          List.filter_eq_self.mpr fun other hother =>
            decide_eq_true (hrest other hother)
        simpa [heq] using hkept.symm
      · simp [heq, ih hdistinct.2]

end Distinct

/-- Setting the entries of a container in order finds, for each key, the value
in these entries, and otherwise the one from before. -/
theorem get?_setAll (base : Container α) {entries : List (Key × α)}
    (hnodup : (entries.map Prod.fst).Nodup) (key : Key) :
    (base.setAll entries).get? key =
      (valueAt? key entries).or (base.get? key) := by
  induction entries generalizing base with
  | nil => rfl
  | cons entry rest ih =>
      obtain ⟨first, value⟩ := entry
      rw [List.map_cons, List.nodup_cons] at hnodup
      rw [setAll_cons, ih _ hnodup.2]
      by_cases heq : first = key
      · subst heq
        have hnone : valueAt? first rest = none := by
          rw [← Option.not_isSome_iff_eq_none, valueAt?_isSome_iff]
          exact hnodup.1
        simp [valueAt?, hnone]
      · simp [valueAt?, heq, get?_set_of_ne _ _ (Ne.symm heq)]

/-- Setting new keys adds their entries at the end. -/
theorem entries_setAll {base : Container α} {entries : List (Key × α)}
    (hnodup : (base.keys ++ entries.map Prod.fst).Nodup) :
    (base.setAll entries).entries = base.entries ++ entries := by
  induction entries generalizing base with
  | nil => exact (List.append_nil base.entries).symm
  | cons entry rest ih =>
      obtain ⟨key, value⟩ := entry
      have hnew : key ∉ base.keys := fun hold =>
        (List.nodup_append.mp hnodup).2.2 key hold key List.mem_cons_self rfl
      have hentries : (base.set key value).entries =
          base.entries ++ [(key, value)] :=
        setEntry_of_not_mem value hnew
      have hkeys : (base.set key value).keys = base.keys ++ [key] := by
        rw [keys_set, if_neg hnew]
      rw [setAll_cons, ih (by simpa [hkeys] using hnodup), hentries,
        List.append_assoc]
      rfl

theorem set_set (container : Container α) (key : Key) (old value : α) :
    (container.set key old).set key value = container.set key value := by
  refine ext_taken (setEntry_setEntry old value) ?_
  simp only [taken_next_set]
  omega

theorem set_comm {container : Container α} {key other : Key}
    (value more : α) (hne : other ≠ key) (hold : key ∈ container.keys) :
    (container.set key value).set other more =
      (container.set other more).set key value := by
  refine ext_taken (setEntry_comm value more hne hold) ?_
  simp only [taken_next_set]
  omega

/-- Once a key has its place, it can be set before or after others. -/
theorem setAll_set {base : Container α} {entries : List (Key × α)} {key : Key}
    (value : α) (hnew : key ∉ entries.map Prod.fst)
    (hold : key ∈ base.keys) :
    (base.set key value).setAll entries =
      (base.setAll entries).set key value := by
  induction entries generalizing base with
  | nil => rfl
  | cons entry rest ih =>
      obtain ⟨other, more⟩ := entry
      rw [List.map_cons, List.mem_cons, not_or] at hnew
      have hne : other ≠ key := fun h => hnew.1 h.symm
      rw [setAll_cons, setAll_cons, set_comm value more hne hold]
      exact ih hnew.2 (mem_keys_set.mpr (.inl hold))

/-- Setting the entries of a container after one of its keys was set is the
same as setting this key last. -/
theorem setAll_setEntry {base : Container α} {entries : List (Key × α)}
    (hnodup : (entries.map Prod.fst).Nodup) (key : Key) (value : α) :
    base.setAll (setEntry key value entries) =
      (base.setAll entries).set key value := by
  induction entries generalizing base with
  | nil => rfl
  | cons entry rest ih =>
      obtain ⟨first, old⟩ := entry
      rw [List.map_cons, List.nodup_cons] at hnodup
      by_cases heq : first = key
      · subst heq
        have hplaced : first ∈ (base.set first old).keys :=
          mem_keys_set.mpr (.inr rfl)
        simp only [setEntry, ↓reduceIte, setAll_cons]
        rw [← setAll_set value hnodup.1 hplaced, set_set]
      · simp only [setEntry, heq, ↓reduceIte, setAll_cons]
        exact ih hnodup.2

/-- What some sets made of a container has the same effect on another one as
the entries of the container and then these sets. -/
theorem setAll_entries_setAll {base container : Container α}
    (hdistinct : container.Distinct) (entries : List (Key × α)) :
    base.setAll (container.setAll entries).entries =
      (base.setAll container.entries).setAll entries := by
  induction entries generalizing container with
  | nil => rfl
  | cons entry rest ih =>
      obtain ⟨key, value⟩ := entry
      rw [setAll_cons, setAll_cons, ih (hdistinct.set key value)]
      exact congrArg (Container.setAll · rest)
        (setAll_setEntry hdistinct key value)

theorem ofPairs_concat (pairs : List (Key × α)) (key : Key) (value : α) :
    ofPairs (pairs ++ [(key, value)]) = (ofPairs pairs).set key value :=
  setAll_append empty pairs [(key, value)]

/-- The keys of a container stand in the order in which they were first set. -/
theorem keys_ofPairs (pairs : List (Key × α)) :
    (ofPairs pairs).keys = (pairs.map Prod.fst).eraseDups := by
  induction pairs using List.reverseRecOn with
  | nil => rfl
  | append_singleton pairs pair ih =>
      obtain ⟨key, value⟩ := pair
      rw [ofPairs_concat, keys_set, ih, List.map_append, List.eraseDups_append]
      by_cases hold : key ∈ pairs.map Prod.fst
      · simp [List.removeAll, hold]
      · simp [List.removeAll, hold, List.eraseDups_cons]

/-- Of the values that were set for a key, the last one counts. -/
theorem get?_ofPairs (pairs : List (Key × α)) (key : Key) :
    (ofPairs pairs).get? key = valueAt? key pairs.reverse := by
  induction pairs using List.reverseRecOn with
  | nil => rfl
  | append_singleton pairs pair ih =>
      obtain ⟨other, value⟩ := pair
      rw [ofPairs_concat, List.reverse_append, List.reverse_singleton,
        List.singleton_append, valueAt?, ← ih]
      by_cases heq : other = key
      · rw [if_pos heq, heq, get?_set_self]
      · rw [if_neg heq, get?_set_of_ne _ value (Ne.symm heq)]

end Container

end ChainScript
