import ChainScript.Value

/-
Chains of frames: looking up, binding, stacking and merging.

Looking up walks outward and stops at the first frame that has the key.
Merging starts at the outermost frame and lets the inner ones override.
-/

namespace ChainScript

namespace Chain

/-- The frames of a chain, innermost first. -/
def frames (chain : Chain) : List FrameId :=
  chain.map Link.frame

/-- Number of frames. -/
def depth (chain : Chain) : Nat :=
  chain.length

/-- The chains have the same innermost link, and so are the same throughout;
there is only one chain without frames. -/
def same : Chain → Chain → Bool
  | [], [] => true
  | left :: _, right :: _ => left.number == right.number
  | _, _ => false

end Chain

namespace Heap

variable (heap : Heap)

/-- The value of a key in the innermost of some frames that has it, and that
frame. -/
def resolveIn (key : Key) : List FrameId → Option (Value × FrameId)
  | [] => none
  | frame :: outer =>
      match (heap.frame frame).get? key with
      | some value => some (value, frame)
      | none => resolveIn key outer

/-- Look a key up in a chain. -/
def resolve? (chain : Chain) (key : Key) : Option (Value × FrameId) :=
  heap.resolveIn key chain.frames

/-- The value of a key in a chain. -/
def lookup? (chain : Chain) (key : Key) : Option Value :=
  (heap.resolve? chain key).map Prod.fst

/-- Merge frames, given innermost first: the entries of outer frames come
first, and those of inner frames override them in place. -/
def mergeFrames : List FrameId → Container Value
  | [] => .empty
  | frame :: outer =>
      (mergeFrames outer).setAll (heap.frame frame).entries

/-- The merged entries of a chain. -/
def flatten (chain : Chain) : Container Value :=
  heap.mergeFrames chain.frames

/-- Put frames, given innermost first, on top of a chain. -/
def pushAll (heap : Heap) : List FrameId → Chain → Chain × Heap
  | [], base => (base, heap)
  | frame :: outer, base =>
      let (chain, heap) := heap.pushAll outer base
      heap.push frame chain

/-- The frames of one chain on top of another chain. -/
def stack (heap : Heap) (top base : Chain) : Chain × Heap :=
  heap.pushAll top.frames base

/-- Bind a key in the innermost frame of a chain.  A chain without frames gets
one first. -/
def bind (heap : Heap) (chain : Chain) (key : Key) (value : Value) :
    Chain × Heap :=
  match chain with
  | [] => heap.pushNew (Container.empty.set key value) []
  | link :: outer =>
      (link :: outer, heap.setInFrame link.frame key value)

theorem resolveIn_append (key : Key) (inner outer : List FrameId) :
    heap.resolveIn key (inner ++ outer) =
      (heap.resolveIn key inner).or (heap.resolveIn key outer) := by
  induction inner with
  | nil => rfl
  | cons frame rest ih =>
      cases hget : (heap.frame frame).get? key with
      | some value => simp [resolveIn, hget]
      | none => simp [resolveIn, hget, ih]

theorem pushAll_frames (heap : Heap) (frames : List FrameId) (base : Chain) :
    Chain.frames (heap.pushAll frames base).1 =
      frames ++ Chain.frames base := by
  induction frames with
  | nil => rfl
  | cons frame outer ih =>
      simpa [pushAll, push, Chain.frames] using ih

/-- Stacking puts the frames of the first chain in front. -/
theorem stack_frames (heap : Heap) (top base : Chain) :
    Chain.frames (heap.stack top base).1 =
      Chain.frames top ++ Chain.frames base :=
  heap.pushAll_frames _ _

theorem frame_pushAll (heap : Heap) (frames : List FrameId) (base : Chain)
    (id : FrameId) :
    (heap.pushAll frames base).2.frame id = heap.frame id := by
  induction frames with
  | nil => rfl
  | cons frame outer ih => simpa [pushAll] using ih

/-- Stacking changes no frame. -/
theorem frame_stack (heap : Heap) (top base : Chain) (id : FrameId) :
    (heap.stack top base).2.frame id = heap.frame id :=
  heap.frame_pushAll _ _ id

end Heap

end ChainScript
