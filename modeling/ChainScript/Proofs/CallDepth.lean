import Mathlib.Algebra.Order.BigOperators.Group.List
import Mathlib.Algebra.Order.Group.Nat
import ChainScript.Interpreter
import ChainScript.Proofs.SafeCalls

/-
How deep evaluation can reach.

The parts of an expression or a statement are among the rows that were added
before it, and every call takes up one of the active calls that are left.  A
call may jump to any function, so each active call that is left accounts for
all rows of all programs.
-/

namespace ChainScript

open Step Run

variable {World : Type} {custody : Custody World}

theorem size_le_totalSize {programs : Array Program} {number : Nat}
    {program : Program} (hprogram : programs[number]? = some program) :
    program.size ≤ totalSize programs := by
  have hsum : totalSize programs = (programs.toList.map Program.size).sum := by
    rw [totalSize, ← Array.foldl_toList, List.sum_eq_foldl_nat,
      List.foldl_map]
  rw [hsum]
  refine List.le_sum_of_mem (List.mem_map_of_mem ?_)
  exact Array.mem_toList_iff.mpr (Array.mem_of_getElem? hprogram)

namespace Site

variable (site : Site)

/-- Calls that can still be made inside of each other. -/
def callsLeft : Nat :=
  site.calls.limit - site.calls.depth

/-- The depth that a call may reach. -/
def callDepth : Nat :=
  site.callsLeft * (totalSize site.programs + 1) + 1

/-- An active call leaves less depth to its own calls, by as much as its body
may need. -/
theorem callDepth_push {call : ActiveCall} {calls : CallStack}
    (hpush : site.calls.push call = .ok calls) :
    totalSize site.programs + { site with calls := calls : Site }.callDepth + 1 =
      site.callDepth := by
  unfold CallStack.push at hpush
  split at hpush
  · cases hpush
  · next hroom =>
      cases hpush
      simp only [CallStack.depth] at hroom
      have hleft : site.calls.limit - site.calls.calls.size =
          site.calls.limit - (site.calls.calls.size + 1) + 1 := by
        omega
      simp only [callDepth, callsLeft, CallStack.depth, Array.size_push]
      rw [hleft, Nat.succ_mul]
      omega

theorem callDepth_le :
    totalSize site.programs + site.callDepth ≤
      (site.calls.limit + 2) * (totalSize site.programs + 2) := by
  have hleft : site.callsLeft ≤ site.calls.limit := Nat.sub_le _ _
  have hcalls : site.callsLeft * (totalSize site.programs + 1) ≤
      site.calls.limit * (totalSize site.programs + 2) :=
    Nat.mul_le_mul hleft (Nat.le_succ _)
  unfold callDepth
  rw [Nat.add_mul]
  omega

end Site

namespace Worker

/-- The worker is safe for all tasks that reach no deeper than some depth: for
calls, and for the expressions and statements of each stage of a program. -/
structure SafeTo (custody : Custody World) (worker : Worker World)
    (depth : Nat) : Prop where
  calls : ∀ site : Site, SoundPrograms site.programs →
    site.callDepth ≤ depth → worker.ServesCalls custody site
  exprs : ∀ (site : Site) (program older : Program),
    SoundPrograms site.programs →
    site.programs[site.program]? = some program → older.Grows program →
    older.exprs.size + site.callDepth ≤ depth →
    worker.ServesExprs custody site older
  stmts : ∀ (site : Site) (program older : Program),
    SoundPrograms site.programs →
    site.programs[site.program]? = some program → older.Grows program →
    program.exprs.size + older.stmts.size + site.callDepth ≤ depth →
    worker.ServesStmts custody site older

/-- No task reaches no deeper than zero. -/
theorem safeTo_zero (worker : Worker World) : worker.SafeTo custody 0 := by
  have hpos : ∀ site : Site, ¬ site.callDepth ≤ 0 :=
    fun _ => Nat.not_succ_le_zero _
  exact
    { calls := fun site _ hdepth => absurd hdepth (hpos site)
      exprs := fun site _ _ _ _ _ hdepth =>
        absurd (Nat.le_of_add_left_le hdepth) (hpos site)
      stmts := fun site _ _ _ _ _ hdepth =>
        absurd (Nat.le_of_add_left_le hdepth) (hpos site) }

section Perform

variable {natives : Natives World} {worker : Worker World} {depth : Nat}

theorem SafeTo.performs_calls (hnatives : natives.Safe custody)
    (hworker : worker.SafeTo custody depth) {site : Site}
    (hprograms : SoundPrograms site.programs)
    (hdepth : site.callDepth ≤ depth + 1) :
    ServesCalls custody (perform natives worker) site := by
  intro env base id args span hid hargs
  -- Code of any program, one call deeper, is within the depth of the worker.
  have hcode : ∀ (call : ActiveCall) (calls : CallStack),
      site.calls.push call = .ok calls →
      ∀ (other : Nat) (program : Program),
        site.programs[other]? = some program →
        program.size + { site with calls := calls : Site }.callDepth ≤ depth := by
    intro call calls hpush other program hprogram
    have hpushed := site.callDepth_push hpush
    have hsize := size_le_totalSize hprogram
    omega
  have hscope : SoundPrograms (site.inScope env).programs := hprograms
  refine safe_evalCall hnatives hscope span hid hargs ?_ ?_
  · intro call calls hpush other program hprogram
    have hfits := hcode call calls hpush other program hprogram
    refine hworker.exprs _ program program hprograms hprogram (.refl _) ?_
    exact Nat.le_trans (Nat.add_le_add_right (Nat.le_add_right _ _) _) hfits
  · intro call calls hpush other program hprogram
    exact hworker.stmts _ program program hprograms hprogram (.refl _)
      (hcode call calls hpush other program hprogram)

theorem SafeTo.performs_exprs (hworker : worker.SafeTo custody depth)
    {site : Site} {program older : Program}
    (hprograms : SoundPrograms site.programs)
    (hprogram : site.programs[site.program]? = some program)
    (hgrows : older.Grows program)
    (hdepth : older.exprs.size + site.callDepth ≤ depth + 1) :
    ServesExprs custody (perform natives worker) site older := by
  intro env base id hopen hid
  have hbuilt := (hprograms _ _ hprogram).2
  have hlt := hid.index_lt
  have hrunning : (site.inScope env).programs[(site.inScope env).program]? =
      some program := hprogram
  have hcalls : worker.ServesCalls custody (site.inScope env) := by
    apply hworker.calls (site.inScope env) hprograms
    change site.callDepth ≤ depth
    omega
  apply safe_evalExpr hrunning hcalls hbuilt hopen (hid.grows hgrows)
  intro part hpart hsize
  apply hworker.exprs (site.inScope env) program part hprograms hprogram
    hpart
  change part.exprs.size + site.callDepth ≤ depth
  omega

theorem SafeTo.performs_stmts (hworker : worker.SafeTo custody depth)
    {site : Site} {program older : Program}
    (hprograms : SoundPrograms site.programs)
    (hprogram : site.programs[site.program]? = some program)
    (hgrows : older.Grows program)
    (hdepth : program.exprs.size + older.stmts.size + site.callDepth ≤
      depth + 1) :
    ServesStmts custody (perform natives worker) site older := by
  intro env base id hopen hid
  have hbuilt := (hprograms _ _ hprogram).2
  have hlt := hid.index_lt
  have hrunning : (site.inScope env).programs[(site.inScope env).program]? =
      some program := hprogram
  have hcalls : worker.ServesCalls custody (site.inScope env) := by
    apply hworker.calls (site.inScope env) hprograms
    change site.callDepth ≤ depth
    omega
  have hexprs : worker.ServesExprs custody (site.inScope env) program := by
    apply hworker.exprs (site.inScope env) program program hprograms hprogram
      (.refl _)
    change program.exprs.size + site.callDepth ≤ depth
    omega
  apply safe_evalStmt hrunning hcalls hbuilt hopen (hid.grows hgrows)
    hexprs
  intro part hpart hsize
  apply hworker.stmts (site.inScope env) program part hprograms hprogram
    hpart
  change program.exprs.size + part.stmts.size + site.callDepth ≤ depth
  omega

/-- A worker whose parts are safe to some depth is safe one deeper. -/
theorem SafeTo.perform (hnatives : natives.Safe custody)
    (hworker : worker.SafeTo custody depth) :
    SafeTo custody (perform natives worker) (depth + 1) where
  calls := fun _ => hworker.performs_calls hnatives
  exprs := fun _ _ _ => hworker.performs_exprs
  stmts := fun _ _ _ => hworker.performs_stmts

end Perform

end Worker

end ChainScript
