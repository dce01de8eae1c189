import ChainScript.Proofs.ContainerLaws
import ChainScript.Proofs.Nesting

/-
Looking up and merging agree.

Looking up goes from the innermost frame outward and merging from the outermost
frame inward, overwriting in place.  Both find the value of the innermost frame
that has the key.  Merging stacked chains has the effect of merging the lower
one and then setting the merged entries of the upper one.  The frames of the
upper chain have distinct keys, as all containers have that come about by
setting, appending, removing and expanding.
-/

namespace ChainScript

namespace Heap

variable {heap other : Heap}

/-- Lookups find the innermost frame that has the key, and its value. -/
theorem resolveIn_eq_some_iff {key : Key} {value : Value} {frame : FrameId}
    {frames : List FrameId} :
    heap.resolveIn key frames = some (value, frame) ↔
      ∃ inner outer, frames = inner ++ frame :: outer ∧
        (∀ id ∈ inner, (heap.frame id).get? key = none) ∧
        (heap.frame frame).get? key = some value := by
  constructor
  · intro hresolve
    induction frames with
    | nil => cases hresolve
    | cons first rest ih =>
        unfold resolveIn at hresolve
        split at hresolve
        · next found hfound =>
            cases hresolve
            exact ⟨[], rest, rfl, fun _ hid => absurd hid List.not_mem_nil,
              hfound⟩
        · next hnone =>
            obtain ⟨inner, outer, rfl, hinner, hvalue⟩ := ih hresolve
            exact ⟨first :: inner, outer, rfl,
              List.forall_mem_cons.mpr ⟨hnone, hinner⟩, hvalue⟩
  · rintro ⟨inner, outer, rfl, hinner, hvalue⟩
    induction inner with
    | nil => simp [resolveIn, hvalue]
    | cons first rest ih =>
        obtain ⟨hfirst, hrest⟩ := List.forall_mem_cons.mp hinner
        simp [resolveIn, hfirst, ih hrest]

/-- Merging leaves one entry for each key. -/
theorem distinct_mergeFrames (heap : Heap) (frames : List FrameId) :
    (heap.mergeFrames frames).Distinct := by
  induction frames with
  | nil => exact Container.distinct_empty
  | cons first rest ih => exact ih.setAll _

theorem get?_mergeFrames {frames : List FrameId}
    (hdistinct : ∀ id ∈ frames, (heap.frame id).Distinct) (key : Key) :
    (heap.mergeFrames frames).get? key =
      (heap.resolveIn key frames).map Prod.fst := by
  induction frames with
  | nil => rfl
  | cons first rest ih =>
      obtain ⟨hfirst, hrest⟩ := List.forall_mem_cons.mp hdistinct
      rw [mergeFrames, Container.get?_setAll _ hfirst, ih hrest]
      change ((heap.frame first).get? key).or _ = _
      cases hget : (heap.frame first).get? key with
      | some value => simp [resolveIn, hget]
      | none => simp [resolveIn, hget]

/-- Merging inner and outer frames sets the merged entries of the inner ones
last. -/
theorem mergeFrames_append (heap : Heap) (inner outer : List FrameId) :
    heap.mergeFrames (inner ++ outer) =
      (heap.mergeFrames outer).setAll (heap.mergeFrames inner).entries := by
  induction inner with
  | nil => rfl
  | cons first rest ih =>
      rw [List.cons_append, mergeFrames, ih, mergeFrames,
        Container.setAll_entries_setAll (heap.distinct_mergeFrames rest)]

theorem depth_stack (heap : Heap) (top base : Chain) :
    (heap.stack top base).1.depth = top.depth + base.depth := by
  have hlength := congrArg List.length (heap.stack_frames top base)
  simpa [Chain.frames, Chain.depth] using hlength

/-- For all chains: a lookup finds what the merged entries hold, in the
innermost frame that has the key; a lookup in stacked chains goes on to the
lower one, while merging sets the entries of the upper one over those of the
lower one; and stacking is associative and adds up the numbers of frames. -/
theorem lookup_agrees_with_merging (heap : Heap) (top base : Chain)
    (hdistinct : ∀ id ∈ top.frames, (heap.frame id).Distinct) :
    let stacked := heap.stack top base
    (∀ key, (heap.resolve? top key).map Prod.fst =
        (heap.flatten top).get? key) ∧
      (∀ key value frame, heap.resolve? top key = some (value, frame) ↔
        ∃ inner outer, top.frames = inner ++ frame :: outer ∧
          (∀ id ∈ inner, (heap.frame id).get? key = none) ∧
          (heap.frame frame).get? key = some value) ∧
      (∀ key, stacked.2.resolve? stacked.1 key =
        (heap.resolve? top key).or (heap.resolve? base key)) ∧
      stacked.2.flatten stacked.1 =
        (heap.flatten base).setAll (heap.flatten top).entries ∧
      (∀ lowest,
        let below := heap.stack base lowest
        Chain.frames (stacked.2.stack stacked.1 lowest).1 =
            Chain.frames (below.2.stack top below.1).1 ∧
          ∀ id, (stacked.2.stack stacked.1 lowest).2.frame id =
            (below.2.stack top below.1).2.frame id) ∧
      top.depth = top.frames.length ∧
      stacked.1.depth = top.depth + base.depth := by
  intro stacked
  have hframe : ∀ id, stacked.2.frame id = heap.frame id :=
    heap.frame_stack top base
  have hframes : stacked.1.frames = top.frames ++ base.frames :=
    heap.stack_frames top base
  refine ⟨?_, ?_, ?_, ?_, ?_, ?_, heap.depth_stack top base⟩
  · exact fun key => (get?_mergeFrames hdistinct key).symm
  · exact fun key value frame => resolveIn_eq_some_iff
  · intro key
    unfold resolve?
    rw [resolveIn_congr (fun id _ => hframe id), hframes, resolveIn_append]
  · unfold flatten
    rw [mergeFrames_congr (fun id _ => hframe id), hframes, mergeFrames_append]
  · intro lowest below
    refine ⟨?_, fun id => ?_⟩
    · rw [stack_frames, hframes, stack_frames, stack_frames,
        List.append_assoc]
    · rw [frame_stack, hframe, frame_stack, frame_stack]
  · exact (List.length_map Link.frame).symm

/-- Two frames that share a label. -/
def overlapping : Heap where
  frames := #[.ofPairs [(.badge "shared", .int 1), (.badge "outer", .int 2)],
    .ofPairs [(.index 4, .int 3), (.badge "shared", .int 4)]]
  nextLink := 2

/-- Both views let the inner frame override the shared label. -/
theorem lookup_agrees_with_merging_overlapping :
    let chain : Chain := [⟨1, 1⟩, ⟨0, 0⟩]
    (∀ id ∈ chain.frames, (overlapping.frame id).Distinct) ∧
      overlapping.resolve? chain (.badge "shared") = some (.int 4, 1) ∧
      (overlapping.flatten chain).get? (.badge "shared") = some (.int 4) := by
  intro chain
  have hdistinct : ∀ id ∈ chain.frames, (overlapping.frame id).Distinct := by
    decide
  have hresolve :
      overlapping.resolve? chain (.badge "shared") = some (.int 4, 1) := rfl
  have hagree :=
    (lookup_agrees_with_merging overlapping chain [] hdistinct).1
  exact ⟨hdistinct, hresolve, (hagree (.badge "shared")).symm.trans
    (congrArg (Option.map Prod.fst) hresolve)⟩

end Heap

end ChainScript
