import ChainScript.Proofs.ScopeRestoration

/-
What is written down while a task is carried out.

Tasks are parts of other tasks, so the moments at which a task begins and ends
enclose those of its parts.  What is true of every task, together with the
moments that it encloses, is true throughout the history of a session.
-/

namespace ChainScript

open Step Machine

variable {World : Type}

/-- A statement about a task: the machine on which it begins, its outcome, the
machine on which it ends, and what has been written down in between. -/
abbrev Account (World : Type) : Type :=
  Task → Machine World → Outcome Exit Value → Machine World →
    List (Moment World) → Prop

namespace Watched

/-- Each task that has ended has begun before, and the account is true of it. -/
def Tells (account : Account World) (watched : Watched World) : Prop :=
  ∀ later task before outcome after earlier,
    watched.past = later ++ .ends task before outcome after :: earlier →
      ∃ meantime older, earlier = meantime ++ .begins task before :: older ∧
        account task before outcome after meantime

/-- More is written down, and the account stays true. -/
structure Continues (account : Account World) (before after : Watched World) :
    Prop where
  suffix : before.past <:+ after.past
  tells : before.Tells account → after.Tells account

variable {account : Account World} {watched : Watched World}

instance : IsPreorder (Watched World) (Continues account) where
  refl _ := ⟨List.suffix_rfl, id⟩
  trans _ _ _ hfirst hsecond :=
    ⟨hfirst.suffix.trans hsecond.suffix, hsecond.tells ∘ hfirst.tells⟩

theorem Tells.note {moment : Moment World} (htells : watched.Tells account)
    (hmoment : ∀ task before outcome after,
      moment = .ends task before outcome after →
        ∃ meantime older, watched.past =
            meantime ++ .begins task before :: older ∧
          account task before outcome after meantime) :
    (watched.note moment).Tells account := by
  intro later task before outcome after earlier hpast
  change moment :: watched.past = _ at hpast
  cases later with
  | nil =>
      obtain ⟨hends, rfl⟩ := List.cons.inj hpast
      exact hmoment task before outcome after hends
  | cons latest later =>
      exact htells later task before outcome after earlier
        (List.cons.inj hpast).2

theorem continues_note (moment : Moment World)
    (hmoment : ∀ task before outcome after,
      moment ≠ .ends task before outcome after) (watched : Watched World) :
    Continues account watched (watched.note moment) where
  suffix := List.suffix_cons moment watched.past
  tells htells := htells.note fun task before outcome after hends =>
    absurd hends (hmoment task before outcome after)

/-- A task that begins and ends is written down with all that happens in
between. -/
theorem continues_recorded {task : Task} {body : Run (Watched World) Value}
    {machine : Machine (Watched World)}
    (hbody : Continues account (machine.began task).world
      (body (machine.began task)).2.world)
    (haccount : ∀ meantime, (body (machine.began task)).2.world.past =
        meantime ++ (machine.began task).world.past →
      account task (machine.mapWorld Watched.world)
        (body (machine.began task)).1
        ((body (machine.began task)).2.mapWorld Watched.world) meantime) :
    Continues account machine.world
      (Run.recorded task body machine).2.world := by
  have hbegun : Continues account machine.world (machine.began task).world :=
    continues_note (.begins task (machine.mapWorld Watched.world)) (by simp)
      machine.world
  have hended := Trans.trans hbegun hbody
  refine ⟨hended.suffix.trans (List.suffix_cons _ _), fun htells =>
    (hended.tells htells).note fun _ _ _ _ hends => ?_⟩
  cases hends
  obtain ⟨meantime, hmeantime⟩ := hbody.suffix
  exact ⟨meantime, machine.world.past, hmeantime.symm,
    haccount meantime hmeantime.symm⟩

end Watched

/-- The account is true of all tasks that are carried out in a scope. -/
def Natives.Bear (natives : Natives World) (account : Account World) : Prop :=
  ∀ depth task (machine : Machine (Watched World)), machine.env ≠ [] →
    let result :=
      perform natives.watched (watch natives depth) task (machine.began task)
    ∀ meantime, result.2.world.past =
        meantime ++ (machine.began task).world.past →
      account task (machine.mapWorld Watched.world) result.1
        (result.2.mapWorld Watched.world) meantime

variable {natives : Natives World} {account : Account World}

theorem Natives.along_continues (natives : Natives World) :
    natives.watched.Along (Watched.Continues account) := by
  intro name args heap watched
  exact Reply.leavesIn_map (Reply.leavesIn_of_forall
    (fun _ => ⟨List.suffix_rfl, id⟩) _)

theorem watch_continues (hbear : natives.Bear account) (depth : Nat) :
    (watch natives depth).Isolating (Watched.Continues account) := by
  induction depth with
  | zero => exact Worker.keeps_halt .exhausted
  | succ depth ih =>
      have hperform := perform_isolating natives.along_continues ih
      have hrecorded : ∀ {spared} task (machine : Machine (Watched World)),
          machine.env ≠ [] →
          Kept (Watched.Continues account) spared (machine.began task)
            (perform natives.watched (watch natives depth) task
              (machine.began task)).2 →
          Kept (Watched.Continues account) spared machine
            (watch natives (depth + 1) task machine).2 :=
        fun task machine hscope hkept => hkept.recorded
          (Watched.continues_recorded hkept.world
            (hbear depth task machine hscope))
      exact ⟨fun id machine hscope => hrecorded _ machine hscope
          (hperform.expr id (machine.began _) hscope),
        fun id machine hscope => hrecorded _ machine hscope
          (hperform.stmt id (machine.began _) hscope),
        fun function args site machine hscope => hrecorded _ machine hscope
          (hperform.call function args site (machine.began _) hscope)⟩

/-- What is true of all tasks is true of those in a history. -/
theorem Session.tells_history (hbear : natives.Bear account) (world : World)
    (requests : List Request) :
    (history natives world requests).world.Tells account := by
  have hcontinues : Watched.Continues account ⟨world, []⟩
      (history natives world requests).world :=
    world_history (watch_continues hbear)
      (fun _ _ => Watched.continues_note _ (by simp)) world requests
  exact hcontinues.tells fun later task before outcome after earlier hpast =>
    absurd hpast.symm (by simp)

end ChainScript
