import ChainScript.Machine
import ChainScript.Proofs.Moves
import Mathlib.Order.Defs.Unbundled

/-
Which frames a computation can reach, and what it gives back.

Assignment writes the innermost frame of the scope and no other one.  Code
that needs a scope of its own gets a frame that nobody else has yet, so all
frames from before are safe from it.
-/

namespace ChainScript

/-- The frame that assignments write to. -/
def Chain.innermost? (chain : Chain) : Option FrameId :=
  chain.frames.head?

/-- All frames are still there.  Only the spared one may hold something
else. -/
structure Heap.KeptBut (spared : Option FrameId) (before after : Heap) :
    Prop where
  size_le : before.frames.size ≤ after.frames.size
  frame_eq : ∀ id < before.frames.size, spared ≠ some id →
    after.frame id = before.frame id

namespace Heap.KeptBut

variable {spared : Option FrameId} {first second third : Heap}

theorem refl (heap : Heap) : heap.KeptBut spared heap :=
  ⟨Nat.le_refl _, fun _ _ _ => rfl⟩

theorem trans (hfirst : first.KeptBut spared second)
    (hsecond : second.KeptBut spared third) : first.KeptBut spared third := by
  refine ⟨Nat.le_trans hfirst.size_le hsecond.size_le, ?_⟩
  intro id hlt hne
  have hmiddle : id < second.frames.size :=
    Nat.lt_of_lt_of_le hlt hfirst.size_le
  rw [hsecond.frame_eq id hmiddle hne, hfirst.frame_eq id hlt hne]

/-- Sparing a frame promises less than sparing none. -/
theorem of_none (hkept : first.KeptBut none second) :
    first.KeptBut spared second :=
  ⟨hkept.size_le, fun id hlt _ => hkept.frame_eq id hlt (by simp)⟩

/-- A frame that is newer than the first heap need not be spared. -/
theorem trans_of_fresh {id : FrameId} (hfirst : first.KeptBut none second)
    (hsecond : second.KeptBut (some id) third)
    (hfresh : first.frames.size ≤ id) : first.KeptBut none third := by
  refine ⟨Nat.le_trans hfirst.size_le hsecond.size_le, ?_⟩
  intro other hlt _
  have hne : some id ≠ some other := by
    intro heq
    cases heq
    exact Nat.not_lt.mpr hfresh hlt
  have hmiddle : other < second.frames.size :=
    Nat.lt_of_lt_of_le hlt hfirst.size_le
  rw [hsecond.frame_eq other hmiddle hne, hfirst.frame_eq other hlt (by simp)]

end Heap.KeptBut

namespace Heap

variable (heap : Heap)

theorem keptBut_addFrame (content : Container Value) :
    heap.KeptBut none (heap.addFrame content).2 :=
  ⟨by simp [addFrame], fun _ hlt _ => heap.frame_addFrame_of_lt content hlt⟩

theorem keptBut_setInFrame (id : FrameId) (key : Key) (value : Value) :
    heap.KeptBut (some id) (heap.setInFrame id key value) :=
  ⟨by simp [setInFrame], fun other _ hne =>
    heap.frame_setInFrame_of_ne key value fun heq => hne (by rw [heq])⟩

theorem keptBut_push (id : FrameId) (chain : Chain) :
    heap.KeptBut none (heap.push id chain).2 :=
  ⟨Nat.le_refl _, fun _ _ _ => rfl⟩

theorem keptBut_pushNew (content : Container Value) (chain : Chain) :
    heap.KeptBut none (heap.pushNew content chain).2 :=
  (heap.keptBut_addFrame content).trans (keptBut_push _ _ _)

theorem keptBut_addArray (content : Container Value) :
    heap.KeptBut none (heap.addArray content).2 :=
  heap.keptBut_pushNew content []

theorem keptBut_addFunction (function : Function) :
    heap.KeptBut none (heap.addFunction function).2 :=
  ⟨Nat.le_refl _, fun _ _ _ => rfl⟩

theorem keptBut_bindFunction (id : FunctionId) (args : Container Value) :
    heap.KeptBut none (heap.bindFunction id args).2 := by
  unfold bindFunction
  split
  · exact heap.keptBut_addFunction _
  · exact .refl heap

theorem keptBut_stack (top base : Chain) :
    heap.KeptBut none (heap.stack top base).2 := by
  unfold stack
  induction top.frames with
  | nil => exact .refl heap
  | cons frame outer ih => exact ih.trans (keptBut_push _ _ _)

theorem keptBut_compose {left right value : Value} {after : Heap}
    (hcompose : heap.compose left right = .ok (value, after)) :
    heap.KeptBut none after := by
  unfold compose at hcompose
  split at hcompose
  · cases hcompose
    exact heap.keptBut_stack _ _
  · cases hcompose
    exact heap.keptBut_bindFunction _ _
  · cases hcompose

end Heap

variable {World : Type}

/-- The scope, the running program and the active calls are the same. -/
structure Machine.Restored (before after : Machine World) : Prop where
  programs : after.programs = before.programs
  program : after.program = before.program
  env : after.env = before.env
  calls : after.calls = before.calls

namespace Machine

variable {first second third : Machine World}

theorem Restored.refl (machine : Machine World) : machine.Restored machine :=
  ⟨rfl, rfl, rfl, rfl⟩

theorem Restored.trans (hfirst : first.Restored second)
    (hsecond : second.Restored third) : first.Restored third :=
  ⟨hsecond.programs.trans hfirst.programs,
    hsecond.program.trans hfirst.program, hsecond.env.trans hfirst.env,
    hsecond.calls.trans hfirst.calls⟩

variable (rel : World → World → Prop)

/-- What code may do to a machine that has a scope: no frame but the innermost
one of the scope has changed, the host has moved along a relation, and the
machine is as before otherwise. -/
structure Kept (spared : Option FrameId) (before after : Machine World) :
    Prop where
  restored : before.Restored after
  frames : before.heap.KeptBut spared after.heap
  world : rel before.world after.world

/-- What code may do in the scope that it finds. -/
def Tidied (before after : Machine World) : Prop :=
  before.env ≠ [] → Kept rel before.env.innermost? before after

/-- What code may do that has a scope of its own. -/
def Shielded (before after : Machine World) : Prop :=
  before.env ≠ [] → Kept rel none before after

variable {rel} {spared : Option FrameId}

theorem Kept.refl [Std.Refl rel] (machine : Machine World) :
    Kept rel spared machine machine :=
  ⟨.refl machine, .refl machine.heap, Std.Refl.refl machine.world⟩

theorem Kept.trans [Trans rel rel rel] (hfirst : Kept rel spared first second)
    (hsecond : Kept rel spared second third) :
    Kept rel spared first third :=
  ⟨hfirst.restored.trans hsecond.restored, hfirst.frames.trans hsecond.frames,
    Trans.trans hfirst.world hsecond.world⟩

/-- What leaves all frames alone leaves all but one alone. -/
theorem Shielded.tidied (hshielded : Shielded rel first second) :
    Tidied rel first second :=
  fun hscope =>
    { hshielded hscope with frames := (hshielded hscope).frames.of_none }

instance [Std.Refl rel] : Std.Refl (Tidied rel) :=
  ⟨fun machine _ => .refl machine⟩

instance [Std.Refl rel] : Std.Refl (Shielded rel) :=
  ⟨fun machine _ => .refl machine⟩

instance [Trans rel rel rel] :
    Trans (Tidied rel) (Tidied rel) (Tidied rel) where
  trans hfirst hsecond hscope := by
    have hkept := hfirst hscope
    have hsame := hkept.restored.env
    have hkept' := hsecond (hsame ▸ hscope)
    rw [hsame] at hkept'
    exact hkept.trans hkept'

instance [Trans rel rel rel] :
    Trans (Shielded rel) (Shielded rel) (Shielded rel) where
  trans hfirst hsecond hscope := by
    have hkept := hfirst hscope
    exact hkept.trans (hsecond (hkept.restored.env ▸ hscope))

end Machine

/-- All states of the host that a reply can end in have a property. -/
def Reply.LeavesIn (property : World → Prop) : Reply World → Prop
  | .answer _ world => property world
  | .array _ next => ∀ value, (next value).LeavesIn property
  | .compose _ _ next => ∀ result, (next result).LeavesIn property
  | .native _ next => ∀ value, (next value).LeavesIn property

/-- No function of the host leaves a relation on the host's states. -/
def Natives.Along (natives : Natives World) (rel : World → World → Prop) :
    Prop :=
  ∀ name args heap world,
    (natives.reply name args heap world).LeavesIn (rel world)

theorem Reply.leavesIn_of_forall {property : World → Prop}
    (hall : ∀ world, property world) (reply : Reply World) :
    reply.LeavesIn property := by
  induction reply with
  | answer _ world => exact hall world
  | array _ _ ih => exact ih
  | compose _ _ _ ih => exact ih
  | native _ _ ih => exact ih

/-- Of every two states of a host. -/
def AnyTwo (_ _ : World) : Prop :=
  True

instance : IsPreorder World AnyTwo where
  refl _ := trivial
  trans _ _ _ _ _ := trivial

theorem Natives.along_anyTwo (natives : Natives World) :
    natives.Along AnyTwo :=
  fun _ _ _ _ => Reply.leavesIn_of_forall (fun _ => trivial) _

end ChainScript
