import ChainScript.Proofs.Confinement

/-
Frame isolation: running code leaves every frame alone that was there before,
but for the innermost frame of its own scope.  Blocks and calls leave that one
alone too.

The statements about whole evaluations follow by induction on the depth.
-/

namespace ChainScript

open Step Machine

variable {World α : Type} {rel : World → World → Prop}

/-- A relation that ignores the host says at least that frames are kept. -/
theorem Machine.Tidied.anyTwo {before after : Machine World}
    (htidied : Tidied rel before after) : Tidied AnyTwo before after :=
  fun hscope => { htidied hscope with world := trivial }

section Isolation

variable [IsPreorder World rel]

instance : Allowance (Tidied rel) where
  tidied := Machine.Tidied.anyTwo
  trans hfirst hsecond := Trans.trans hfirst hsecond
  made machine _ hmade _ :=
    ⟨⟨rfl, rfl, rfl, rfl⟩, hmade.of_none, Std.Refl.refl machine.world⟩

instance : Allowance (Shielded rel) where
  tidied hshielded := hshielded.tidied.anyTwo
  trans hfirst hsecond := Trans.trans hfirst hsecond
  made machine _ hmade _ :=
    ⟨⟨rfl, rfl, rfl, rfl⟩, hmade, Std.Refl.refl machine.world⟩

end Isolation

instance : Confining (Tidied rel) (Shielded rel) :=
  ⟨Shielded.tidied⟩

namespace Run

theorem moves_bind [IsPreorder World rel] (key : Key) (value : Value) :
    Moves (Tidied rel) (Run.bind key value : Run World Unit) := by
  intro machine hscope
  obtain ⟨heap, programs, number, env, calls, world⟩ := machine
  cases env with
  | nil => exact absurd rfl hscope
  | cons link outer =>
      exact ⟨⟨rfl, rfl, rfl, rfl⟩, heap.keptBut_setInFrame _ _ _,
        Std.Refl.refl world⟩

variable {body : Run World α}

/-- Code in a new innermost frame changes only that frame, which nobody else
has yet.  This needs no scope around the frame. -/
theorem kept_inFrame (content : Container Value)
    (hbody : Moves (Tidied rel) body) (machine : Machine World) :
    Kept rel none machine (inFrame content body machine).2 := by
  rw [inFrame_apply]
  have hkept := hbody
    { machine with
      env := (machine.heap.pushNew content machine.env).1
      heap := (machine.heap.pushNew content machine.env).2 }
    (List.cons_ne_nil _ _)
  obtain ⟨hprograms, hprogram, henv, hcalls⟩ := hkept.restored
  refine ⟨⟨hprograms, hprogram, ?_, hcalls⟩, ?_, hkept.world⟩
  · exact congrArg List.tail henv
  · exact (machine.heap.keptBut_pushNew content machine.env).trans_of_fresh
      hkept.frames (Nat.le_refl _)

/-- Code in another scope gives the outer scope back.  It changes the innermost
frame of its own scope at most, which is a new one. -/
theorem kept_inScope (hbody : Moves (Tidied rel) body)
    (machine : Machine World) {heap : Heap} (number : Nat) (link : Link)
    (chain : Chain) (hmade : machine.heap.KeptBut none heap)
    (hfresh : machine.heap.frames.size ≤ link.frame) :
    let started :=
      { machine with heap, program := number, env := link :: chain }
    Kept rel none machine { (body started).2 with
      program := machine.program, env := machine.env } := by
  intro started
  have hkept := hbody started (List.cons_ne_nil _ _)
  obtain ⟨hprograms, _, _, hcalls⟩ := hkept.restored
  exact ⟨⟨hprograms, rfl, rfl, hcalls⟩,
    hmade.trans_of_fresh hkept.frames hfresh, hkept.world⟩

/-- The body of an active call starts from the same frames, and the call ends
with its body. -/
theorem moves_inCall [IsPreorder World rel] (call : ActiveCall)
    (hbody : Moves (Shielded rel) body) :
    Moves (Shielded rel) (inCall call body) := by
  intro machine hscope
  cases hpush : machine.calls.push call with
  | error cause =>
      rw [inCall_of_error hpush]
      exact .refl machine
  | ok calls =>
      have hkept := hbody { machine with calls } hscope
      obtain ⟨hprograms, hprogram, henv, hcalls⟩ := hkept.restored
      rw [inCall_of_ok hpush]
      simp only [snd_noting]
      refine ⟨⟨hprograms, hprogram, henv, ?_⟩, hkept.frames, hkept.world⟩
      rw [hcalls]
      exact CallStack.pop_push hpush

end Run

variable [IsPreorder World rel]

instance : Discipline (Tidied rel) (Shielded rel) where
  bind := Run.moves_bind
  inScope hbody machine _ number link chain hmade hfresh _ _ :=
    Run.kept_inScope hbody machine number link chain hmade hfresh
  inCall hbody call := Run.moves_inCall call hbody

namespace Run

/-- Carrying out a reply changes no frame, and the host ends as the reply
says. -/
theorem kept_carryOut (reply : Reply World) (machine : Machine World)
    (hreply : reply.LeavesIn (rel machine.world)) (hscope : machine.env ≠ []) :
    Kept rel none machine (carryOut reply machine).2 := by
  induction reply generalizing machine with
  | answer result world =>
      cases result <;>
        exact ⟨⟨rfl, rfl, rfl, rfl⟩, .refl machine.heap, hreply⟩
  | array content next ih =>
      have hmade : Moves (Shielded rel) (newArray content : Run World Value) :=
        moves_newArray content
      exact (hmade machine hscope).trans (ih _ _ (hreply _) hscope)
  | compose left right next ih =>
      have hcomposed : Moves (Shielded rel)
          (compose left right : Run World (Except Cause Value)) :=
        moves_compose left right
      have hmade := hcomposed machine hscope
      have hend : ∃ result after,
          (compose left right machine : _ × Machine World) =
              (.ok result, after) ∧
            after.world = machine.world := by
        unfold compose
        rw [bind_apply]
        simp only [readHeap, read_apply]
        cases machine.heap.compose left right <;> exact ⟨_, _, rfl, rfl⟩
      obtain ⟨result, after, hcompose, hworld⟩ := hend
      rw [hcompose] at hmade
      change Kept rel none machine
        ((compose left right >>= fun result => carryOut (next result))
          machine).2
      rw [bind_apply, hcompose]
      refine hmade.trans (ih result after ?_ ?_)
      · exact hworld ▸ hreply result
      · exact hmade.restored.env ▸ hscope
  | native name next ih =>
      have hmade : Moves (Shielded rel) (newNative name : Run World Value) :=
        moves_newNative name
      exact (hmade machine hscope).trans (ih _ _ (hreply _) hscope)

/-- The host reads frames, but it does not write them. -/
theorem moves_askHost {natives : Natives World} (hnatives : natives.Along rel)
    (name : String) (args : Container Value) :
    Moves (Shielded rel) (askHost natives name args) :=
  fun machine hscope =>
    kept_carryOut _ machine (hnatives name args machine.heap machine.world)
      hscope

end Run

/-- Expressions and statements write the innermost frame at most, and calls
write no frame that was there before. -/
abbrev Worker.Isolating (rel : World → World → Prop) (worker : Worker World) :
    Prop :=
  worker.Keeps (Tidied rel) (Shielded rel)

theorem perform_isolating {natives : Natives World}
    (hnatives : natives.Along rel) {worker : Worker World}
    (hworker : worker.Isolating rel) :
    (perform natives worker).Isolating rel :=
  perform_keeps (Run.moves_askHost hnatives) hworker

theorem evaluate_isolating {natives : Natives World}
    (hnatives : natives.Along rel) (depth : Nat) :
    (evaluate natives depth).Isolating rel := by
  induction depth with
  | zero => exact Worker.keeps_halt .exhausted
  | succ depth ih => exact perform_isolating hnatives ih

omit [IsPreorder World rel] in
/-- Frame isolation.  However the evaluation of an expression, a statement or
a list of statements ends, every frame from before has the same entries and the
same next position afterwards, with the innermost frame of the scope as the
only exception.  After a block or a call there is no exception. -/
theorem evaluate_keeps_frames (natives : Natives World) (depth : Nat)
    (machine : Machine World) (innermost : Link) (outer : Chain)
    (hscope : machine.env = innermost :: outer) :
    (∀ id, machine.heap.KeptBut (some innermost.frame)
      (evaluate natives depth (.expr id) machine).2.heap) ∧
    (∀ id, machine.heap.KeptBut (some innermost.frame)
      (evaluate natives depth (.stmt id) machine).2.heap) ∧
    (∀ range, machine.heap.KeptBut (some innermost.frame)
      ((evaluate natives depth).stmts range machine).2.heap) ∧
    (∀ block, machine.heap.KeptBut none
      ((evaluate natives depth).block block machine).2.heap) ∧
    (∀ function args site, machine.heap.KeptBut none
      (evaluate natives depth (.call function args site) machine).2.heap) := by
  have hworker := evaluate_isolating natives.along_anyTwo depth
  have hne : machine.env ≠ [] := by simp [hscope]
  have hinnermost : machine.env.innermost? = some innermost.frame := by
    simp [hscope, Chain.innermost?, Chain.frames]
  rw [← hinnermost]
  refine ⟨fun id => ?_, fun id => ?_, fun range => ?_, fun block => ?_,
    fun function args site => ?_⟩
  · exact (hworker.expr id machine hne).frames
  · exact (hworker.stmt id machine hne).frames
  · exact (Worker.moves_stmts hworker range machine hne).frames
  · exact (Worker.moves_block hworker block machine hne).frames
  · exact (hworker.call function args site machine hne).frames

/-- A machine about to run `x = 1` in a frame of globals, next to the frame of
an array. -/
def assigningMachine : Machine Unit :=
  let program : Program :=
    { number := 0
      exprs := #[⟨.int 1, .origin⟩, ⟨.assign (.badge "x") ⟨0, 0⟩, .origin⟩] }
  .start (Heap.empty.addArray (.ofValues [.int 5])).2 #[program] 0 .empty 3 ()

theorem evaluate_keeps_frames_assigning :
    assigningMachine.env = [⟨1, 1⟩] ∧
      assigningMachine.heap.KeptBut (some 1)
        (evaluate Host.silent.natives 2 (.expr ⟨0, 1⟩)
          assigningMachine).2.heap :=
  ⟨rfl, (evaluate_keeps_frames Host.silent.natives 2 assigningMachine ⟨1, 1⟩ []
    rfl).1 ⟨0, 1⟩⟩

end ChainScript
