import ChainScript.Proofs.Acyclicity

/-
Which link a number belongs to.

Links are told apart by their numbers, and a new link gets the next one.  So the
number tells what is behind a link, as long as a host makes up no links: arrays
with the same innermost link are one array.
-/

namespace ChainScript

variable {World : Type}

namespace Heap

variable (heap : Heap)

/-- A value is another one or occurs in it, at some depth. -/
inductive Inside (inner : Value) : Value → Prop where
  | self : Inside inner inner
  | entry {chain : Chain} {entry : Key × Value}
      (among : entry ∈ (heap.flatten chain).entries)
      (inside : Inside inner entry.2) : Inside inner (.array chain)

/-- The number of a link belongs to one link only.  So chains with the same
innermost link are one chain, as far as they occur in two values. -/
def Linked (left right : Value) : Prop :=
  ∀ first second : Chain, heap.Inside (.array first) left →
    heap.Inside (.array second) right → Chain.same first second = true →
      first = second

/-- The number of a link belongs to one link only, in all values of some kind. -/
def AllLinked (shown : Value → Prop) : Prop :=
  ∀ left right, shown left → shown right → heap.Linked left right

end Heap

namespace Store

variable {store : Store} {programs : Array Program}

theorem Numbered.eq_of_same (hnumbered : store.Numbered)
    {first second : Chain} (hfirst : store.Follows first)
    (hsecond : store.Follows second)
    (hsame : Chain.same first second = true) : first = second := by
  cases first with
  | nil =>
      cases second with
      | nil => rfl
      | cons => cases hsame
  | cons link outer =>
      cases second with
      | nil => cases hsame
      | cons other outer' =>
          obtain ⟨rfl, rfl⟩ := hnumbered.eq_of_number
            (hfirst link outer List.suffix_rfl)
            (hsecond other outer' List.suffix_rfl) (of_decide_eq_true hsame)
          rfl

/-- What occurs in a held value is held. -/
theorem Sound.holds_inside (hsound : store.Sound programs)
    {inner value : Value} (hvalue : store.Holds value)
    (hinside : store.heap.Inside inner value) : store.Holds inner := by
  induction hinside with
  | self => exact hvalue
  | entry hamong _ ih => exact ih (hsound.holdsAll_flatten _ _ hamong)

theorem Sound.linked (hsound : store.Sound programs)
    (hnumbered : store.Numbered) {left right : Value}
    (hleft : store.Holds left) (hright : store.Holds right) :
    store.heap.Linked left right := by
  intro first second hfirst hsecond hsame
  have hone : store.Holds (.array first) := hsound.holds_inside hleft hfirst
  have hother : store.Holds (.array second) :=
    hsound.holds_inside hright hsecond
  exact hnumbered.eq_of_same hone.2 hother.2 hsame

end Store

/-- What holds of numbered stores and the values that they hold, holds of every
state of a session whose host hands on values as they are, between its requests
and at each moment in the course of one. -/
theorem SuppliedSession.throughout {known : World → Value → Prop}
    {natives : Natives World} {world : World} {requests : List Request}
    (hsupplied : SuppliedSession Heap.HandedOn known natives world requests)
    {holds : Heap → (Value → Prop) → Prop}
    (hholds : ∀ (store : Store) (programs : Array Program) shown,
      store.Sound programs → store.Numbered →
        (∀ value, shown value → store.Holds value) → holds store.heap shown) :
    let history := Session.history natives world requests
    let session := (Session.start world).serveAll (evaluate natives) requests
    history.mapWorld Watched.world = session ∧
      holds session.heap (session.Shows known) ∧
      ∀ moment ∈ history.world.past,
        holds moment.heap (moment.Shows known) := by
  intro history session
  -- No link is there at the beginning, so there is nothing to be behind one.
  let origin : Store := .bare fun _ _ => False
  have horigin : origin.Numbered := ⟨nofun, nofun⟩
  have hhonours : origin.Honours Heap.HandedOn := Store.honours_handedOn
  obtain ⟨store, hat⟩ := Session.at_supplied hhonours hsupplied
  have hsession : history.mapWorld Watched.world = session :=
    Session.history_mapWorld natives world requests
  refine ⟨hsession, ?_, fun moment hmoment => ?_⟩
  · rw [← hsession]
    exact hat.heap_eq ▸ hholds store _ _ hat.sound
      (hat.world.begun.numbered horigin) hat.holds_shown
  · obtain ⟨seen, programs, hheap, hsound, hbegun, _, hheld⟩ :=
      hat.world.seen moment hmoment
    rw [← hheap]
    exact hholds seen programs _ hsound (hbegun.numbered horigin) hheld

/-- In every state of such a session, the number of a link belongs to one link
only. -/
theorem session_linked {known : World → Value → Prop}
    {natives : Natives World} {world : World} {requests : List Request}
    (hsupplied :
      SuppliedSession Heap.HandedOn known natives world requests) :
    let history := Session.history natives world requests
    let session := (Session.start world).serveAll (evaluate natives) requests
    history.mapWorld Watched.world = session ∧
      session.heap.AllLinked (session.Shows known) ∧
      ∀ moment ∈ history.world.past,
        moment.heap.AllLinked (moment.Shows known) :=
  hsupplied.throughout fun _ _ _ hsound hnumbered hheld left right hleft
    hright => hsound.linked hnumbered (hheld left hleft) (hheld right hright)

end ChainScript
