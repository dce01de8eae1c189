import ChainScript.Proofs.Immutability

/-
No array contains itself.

Functions do form cycles with the frames that they captured, and frames are
written.  But arrays are made of frames that have been left for good, and those
hold arrays that were made before.  So the way from a frame to the frames of
the arrays in it comes to an end, and so does all that follows that way:
display and both equalities.
-/

namespace ChainScript

variable {World : Type}

namespace Heap

/-- The inner frame belongs to an array that is in the outer frame. -/
def Nests (heap : Heap) (inner outer : FrameId) : Prop :=
  ∃ entry ∈ (heap.frame outer).entries, ∃ chain : Chain,
    entry.2 = .array chain ∧ inner ∈ chain.frames

/-- Something that follows arrays to a given depth comes to an end before the
bound of the heap: it has an answer there, and the same one at each greater
depth. -/
def Settles {α : Type} (heap : Heap) (follow? : Nat → Option α) : Prop :=
  ∃ answer, ∀ depth, heap.depthBound ≤ depth → follow? depth = some answer

/-- No frame comes back to itself through arrays, nor goes on without end, and
the texts and comparisons of values come to an end. -/
structure Acyclic (heap : Heap) (shown : Value → Prop) : Prop where
  descent : WellFounded heap.Nests
  text : ∀ value, shown value → ∀ nested,
    heap.Settles fun depth => heap.textTo? depth nested value
  equal : ∀ left right, shown left → shown right →
    heap.Settles fun depth => heap.equalTo? depth left right
  same : ∀ left right, shown left → shown right →
    heap.Settles fun depth => heap.sameTo? depth left right

/-- What has an answer at the bound, and no other answer further on, settles. -/
theorem settles_of_eq {α : Type} {heap : Heap} {follow? : Nat → Option α}
    (hfollow : ∀ depth, heap.depthBound ≤ depth →
      (follow? heap.depthBound).isSome ∧
        follow? depth = follow? heap.depthBound) :
    heap.Settles follow? := by
  have hsome := (hfollow heap.depthBound (Nat.le_refl _)).1
  obtain ⟨answer, hanswer⟩ := Option.isSome_iff_exists.mp hsome
  exact ⟨answer, fun depth hdepth => (hfollow depth hdepth).2.trans hanswer⟩

end Heap

namespace Store

variable {store : Store} {programs : Array Program}

/-- From a sealed frame the way comes to an end, by induction on the layers. -/
theorem Layered.acc {heap : Heap} {sealed : List FrameId}
    (hlayered : Layered heap sealed) :
    ∀ id ∈ sealed, Acc heap.Nests id := by
  induction sealed with
  | nil => exact fun _ hid => absurd hid List.not_mem_nil
  | cons frame older ih =>
      intro id hid
      rcases List.mem_cons.mp hid with rfl | hold
      · constructor
        rintro inner ⟨entry, hentry, chain, harray, hinner⟩
        have hheld := hlayered.1 entry hentry
        rw [harray] at hheld
        exact ih hlayered.2 inner (hheld.1 inner hinner)
      · exact ih hlayered.2 id hold

/-- A frame that is still written holds arrays of sealed frames only. -/
theorem Sound.wellFounded_nests (hsound : store.Sound programs) :
    WellFounded store.heap.Nests := by
  constructor
  intro outer
  constructor
  rintro inner ⟨entry, hentry, chain, harray, hinner⟩
  have hheld := hsound.frames outer entry hentry
  rw [harray] at hheld
  exact hsound.layered.acc inner (hheld.1 inner hinner)

theorem Sound.acyclic (hsound : store.Sound programs) {shown : Value → Prop}
    (hholds : ∀ value, shown value → store.Holds value) :
    store.heap.Acyclic shown := by
  have hlayers := hsound.layers_lt
  refine ⟨hsound.wellFounded_nests, fun value hvalue nested => ?_,
    fun left right hleft hright => ?_, fun left right hleft hright => ?_⟩
  · apply Heap.settles_of_eq
    intro depth hdepth
    exact hsound.layered.textTo? (fun _ _ => rfl) List.prefix_rfl hlayers
      (Nat.lt_of_lt_of_le hlayers hdepth) nested
      (hholds value hvalue).unfollowed
  · apply Heap.settles_of_eq
    intro depth hdepth
    exact hsound.layered.equalTo? (fun _ _ => rfl) hlayers
      (Nat.lt_of_lt_of_le hlayers hdepth) (hholds left hleft).unfollowed
      (hholds right hright).unfollowed
  · apply Heap.settles_of_eq
    intro depth hdepth
    exact hsound.layered.sameTo? (fun _ _ => rfl) hlayers
      (Nat.lt_of_lt_of_le hlayers hdepth) (hholds left hleft).unfollowed
      (hholds right hright).unfollowed

end Store

theorem Moment.SeenBy.acyclic {origin : Store} {known : World → Value → Prop}
    {store : Store} {moment : Moment World}
    (hseen : moment.SeenBy origin known store) :
    moment.heap.Acyclic (moment.Shows known) := by
  obtain ⟨seen, programs, hheap, hsound, _, _, hholds⟩ := hseen
  rw [← hheap]
  exact hsound.acyclic hholds

/-- The values of a session: its answers, what its host knows, and all that is
in the heap. -/
def Session.Shows (known : World → Value → Prop) (session : Session World) :
    Value → Prop :=
  session.heap.Occurs fun value =>
    value ∈ session.answers ∨ known session.world value

/-- All values of a session are held. -/
theorem Session.At.holds_shown {origin : Store} {known : World → Value → Prop}
    {session : Session (Watched World)} {store : Store}
    (hat : session.At (Custody.watched origin known) store) :
    ∀ value, (session.mapWorld Watched.world).Shows known value →
      store.Holds value := by
  intro value hvalue
  rw [Session.Shows] at hvalue
  exact hat.sound.holds_of_occurs hat.holds_given (hat.heap_eq ▸ hvalue)

/-- In every state of a fair session, between its requests and at each moment
in the course of one, no frame comes back to itself through arrays, and the
text of every value and the comparison of any two come to an end. -/
theorem session_acyclic {known : World → Value → Prop}
    {natives : Natives World} {world : World} {requests : List Request}
    (hfair : FairSession known natives world requests) :
    let history := Session.history natives world requests
    let session := (Session.start world).serveAll (evaluate natives) requests
    history.mapWorld Watched.world = session ∧
      session.heap.Acyclic (session.Shows known) ∧
      ∀ moment ∈ history.world.past,
        moment.heap.Acyclic (moment.Shows known) := by
  intro history session
  obtain ⟨store, hat⟩ := Session.at_history hfair
  have hsession : history.mapWorld Watched.world = session :=
    Session.history_mapWorld natives world requests
  refine ⟨hsession, ?_, fun moment hmoment =>
    (hat.world.seen moment hmoment).acyclic⟩
  rw [← hsession]
  exact hat.heap_eq ▸ hat.sound.acyclic hat.holds_shown

/-- The script of this session binds a function in the frame that it captures,
and makes an array of that frame. -/
theorem session_acyclic_inheritingTwice :
    let session := (Session.start []).serveAll (evaluate keepingHost)
      inheritingTwice
    session.heap.Acyclic (session.Shows fun kept value => value ∈ kept) :=
  (session_acyclic fairSession_inheritingTwice).2.1

end ChainScript
