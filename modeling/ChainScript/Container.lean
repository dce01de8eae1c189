import ChainScript.Key

/-
Ordered containers: the content of arrays, argument lists and frames.

Entries keep the order in which their keys were first set.  A container also
hands out positions: an appended value gets the position after the largest one
that was ever set.
-/

namespace ChainScript

/-- The first position after `position`, unless it is the last one of all. -/
def successor? (position : UInt64) : Option UInt64 :=
  if position.toNat + 1 < UInt64.size then some (position + 1) else none

/-- Entries in order, and the next position to hand out; `none` when all
positions are used up. -/
structure Container (α : Type) where
  entries : List (Key × α) := []
  next : Option UInt64 := some 0
deriving Repr, DecidableEq, Inhabited

/-- Overwrite the entry of a key in place, or add one at the end. -/
def setEntry {α : Type} (key : Key) (value : α) :
    List (Key × α) → List (Key × α)
  | [] => [(key, value)]
  | (other, old) :: rest =>
      if other = key then (key, value) :: rest
      else (other, old) :: setEntry key value rest

/-- The value of the first entry with a key. -/
def valueAt? {α : Type} (key : Key) : List (Key × α) → Option α
  | [] => none
  | (other, value) :: rest =>
      if other = key then some value else valueAt? key rest

@[simp] theorem valueAt?_setEntry_self {α : Type} (key : Key) (value : α)
    (entries : List (Key × α)) :
    valueAt? key (setEntry key value entries) = some value := by
  induction entries with
  | nil => simp [setEntry, valueAt?]
  | cons entry rest ih =>
      obtain ⟨other, old⟩ := entry
      by_cases heq : other = key <;> simp [setEntry, valueAt?, heq, ih]

theorem valueAt?_setEntry_of_ne {α : Type} {key other : Key} (value : α)
    (entries : List (Key × α)) (hne : other ≠ key) :
    valueAt? other (setEntry key value entries) = valueAt? other entries := by
  induction entries with
  | nil => simp [setEntry, valueAt?, hne.symm]
  | cons entry rest ih =>
      obtain ⟨first, old⟩ := entry
      by_cases heq : first = key
      · subst heq
        simp [setEntry, valueAt?, hne.symm]
      · simp [setEntry, valueAt?, heq, ih]

/-- A key has a value exactly if some entry has the key. -/
theorem valueAt?_isSome_iff {α : Type} (key : Key)
    (entries : List (Key × α)) :
    (valueAt? key entries).isSome = true ↔ key ∈ entries.map Prod.fst := by
  induction entries with
  | nil => simp [valueAt?]
  | cons entry rest ih =>
      obtain ⟨other, value⟩ := entry
      by_cases heq : other = key
      · simp [valueAt?, heq]
      · have hne : key ≠ other := fun h => heq h.symm
        simp [valueAt?, heq, hne, ih]

/-- Setting a key adds it at the end or leaves all keys as they are. -/
theorem map_fst_setEntry {α : Type} (key : Key) (value : α)
    (entries : List (Key × α)) :
    (setEntry key value entries).map Prod.fst =
      if key ∈ entries.map Prod.fst then entries.map Prod.fst
      else entries.map Prod.fst ++ [key] := by
  induction entries with
  | nil => simp [setEntry]
  | cons entry rest ih =>
      obtain ⟨first, old⟩ := entry
      by_cases heq : first = key
      · simp [setEntry, heq]
      · have hne : key ≠ first := fun h => heq h.symm
        simp only [setEntry, heq, ↓reduceIte, List.map_cons, ih,
          List.mem_cons, hne, false_or]
        split <;> rfl

namespace Container

variable {α : Type}

/-- The container without entries. -/
def empty : Container α :=
  {}

def get? (container : Container α) (key : Key) : Option α :=
  valueAt? key container.entries

def contains (container : Container α) (key : Key) : Bool :=
  (container.get? key).isSome

def keys (container : Container α) : List Key :=
  container.entries.map Prod.fst

def values (container : Container α) : List α :=
  container.entries.map Prod.snd

def size (container : Container α) : Nat :=
  container.entries.length

/-- The next position once `key` has been set. -/
def nextAfter (key : Key) (next : Option UInt64) : Option UInt64 :=
  match key, next with
  | .index position, some free =>
      if free ≤ position then successor? position else some free
  | _, next => next

/-- Set a key.  An old entry keeps its place. -/
def set (container : Container α) (key : Key) (value : α) : Container α where
  entries := setEntry key value container.entries
  next := nextAfter key container.next

/-- Add a value under the next position.  Nothing is added when no position is
left. -/
def append (container : Container α) (value : α) :
    Option Key × Container α :=
  match container.next with
  | some position =>
      (some (.index position), container.set (.index position) value)
  | none => (none, container)

/-- Remove a key; the other entries keep their order. -/
def remove (container : Container α) (key : Key) : Container α where
  entries := container.entries.eraseP fun entry => entry.1 = key
  next := container.next

/-- Add one entry of another container: positions are handed out anew, labels
are set. -/
def splice (container : Container α) (entry : Key × α) : Container α :=
  match entry.1 with
  | .index _ => (container.append entry.2).2
  | .badge _ => container.set entry.1 entry.2

/-- Add the entries of another container in order. -/
def expand (container : Container α) (entries : List (Key × α)) :
    Container α :=
  entries.foldl splice container

/-- Set the entries of another container in order, under their own keys. -/
def setAll (container : Container α) (entries : List (Key × α)) :
    Container α :=
  entries.foldl (fun container entry => container.set entry.1 entry.2) container

/-- The container of some pairs. -/
def ofPairs (pairs : List (Key × α)) : Container α :=
  empty.setAll pairs

/-- The container of some values, under the positions from zero on. -/
def ofValues (values : List α) : Container α :=
  values.foldl (fun container value => (container.append value).2) empty

@[simp] theorem get?_empty (key : Key) :
    (empty : Container α).get? key = none :=
  rfl

@[simp] theorem get?_set_self (container : Container α) (key : Key)
    (value : α) : (container.set key value).get? key = some value :=
  valueAt?_setEntry_self key value container.entries

theorem get?_set_of_ne (container : Container α) {key other : Key} (value : α)
    (hne : other ≠ key) :
    (container.set key value).get? other = container.get? other :=
  valueAt?_setEntry_of_ne value container.entries hne

theorem get?_set_congr {left right : Container α} {key : Key}
    (hsame : left.get? key = right.get? key) (other : Key) (value : α) :
    (left.set other value).get? key = (right.set other value).get? key := by
  by_cases heq : key = other
  · rw [heq, get?_set_self, get?_set_self]
  · rw [get?_set_of_ne left value heq, get?_set_of_ne right value heq, hsame]

theorem keys_set (container : Container α) (key : Key) (value : α) :
    (container.set key value).keys =
      if key ∈ container.keys then container.keys
      else container.keys ++ [key] :=
  map_fst_setEntry key value container.entries

@[simp] theorem next_set_badge (container : Container α) (name : String)
    (value : α) :
    (container.set (.badge name) value).next = container.next := by
  simp [set, nextAfter]

theorem append_of_next {container : Container α} {position : UInt64}
    (hnext : container.next = some position) (value : α) :
    container.append value =
      (some (.index position), container.set (.index position) value) := by
  simp [append, hnext]

theorem append_of_full {container : Container α}
    (hnext : container.next = none) (value : α) :
    container.append value = (none, container) := by
  simp [append, hnext]

@[simp] theorem setAll_nil (container : Container α) :
    container.setAll [] = container :=
  rfl

@[simp] theorem setAll_cons (container : Container α) (key : Key) (value : α)
    (rest : List (Key × α)) :
    container.setAll ((key, value) :: rest) =
      (container.set key value).setAll rest :=
  rfl

theorem setAll_append (container : Container α)
    (first second : List (Key × α)) :
    container.setAll (first ++ second) =
      (container.setAll first).setAll second := by
  simp [setAll]

@[simp] theorem expand_nil (container : Container α) :
    container.expand [] = container :=
  rfl

theorem expand_append (container : Container α)
    (first second : List (Key × α)) :
    container.expand (first ++ second) =
      (container.expand first).expand second := by
  simp [expand]

end Container

end ChainScript
