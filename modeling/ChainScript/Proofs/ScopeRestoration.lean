import ChainScript.Proofs.FrameIsolation
import ChainScript.Proofs.History

/-
Every evaluation gives back what it has found: the scope, the running program
and the active calls.

An evaluation in a scope without frames would make a frame and keep it.  So the
statement about whole sessions also says that there is no such evaluation:
interpreters start with a frame, and all code that runs has one.
-/

namespace ChainScript

open Step Machine

variable {World : Type}

/-- An evaluation begins in a scope that has a frame, and ends with the scope,
the program and the active calls from before. -/
def Moment.Tidy : Moment World → Prop
  | .begins _ machine => machine.env ≠ []
  | .ends _ before _ after => before.env ≠ [] ∧ before.Restored after
  | .served _ _ => True

namespace Watched

/-- All that has been written down is tidy. -/
def Tidy (watched : Watched World) : Prop :=
  ∀ moment ∈ watched.past, moment.Tidy

/-- Nothing but tidy moments is added. -/
def StaysTidy (before after : Watched World) : Prop :=
  before.Tidy → after.Tidy

instance : IsPreorder (Watched World) StaysTidy where
  refl _ := id
  trans _ _ _ hfirst hsecond htidy := hsecond (hfirst htidy)

theorem Tidy.note {watched : Watched World} {moment : Moment World}
    (htidy : watched.Tidy) (hmoment : moment.Tidy) :
    (watched.note moment).Tidy := by
  intro other hother
  rcases List.mem_cons.mp hother with rfl | hold
  · exact hmoment
  · exact htidy other hold

end Watched

theorem Reply.leavesIn_map {Shown : Type} {view : World → Shown}
    {property : Shown → Prop} {reply : Reply World}
    (hreply : reply.LeavesIn fun world => property (view world)) :
    (reply.map view).LeavesIn property := by
  induction reply with
  | answer result world => exact hreply
  | array content next ih => exact fun value => ih value (hreply value)
  | compose left right next ih => exact fun result => ih result (hreply result)
  | native name next ih => exact fun value => ih value (hreply value)

theorem Natives.along_watched (natives : Natives World) :
    natives.watched.Along Watched.StaysTidy := by
  intro name args heap watched
  exact Reply.leavesIn_map (Reply.leavesIn_of_forall (fun _ => id) _)

/-- Writing down how a task begins and ends touches nothing but what the host
has written down. -/
theorem Machine.Kept.recorded {rel rel' : Watched World → Watched World → Prop}
    {spared : Option FrameId} {task : Task} {body : Run (Watched World) Value}
    {machine : Machine (Watched World)}
    (hkept : Kept rel spared (machine.began task)
      (body (machine.began task)).2)
    (hworld : rel' machine.world (Run.recorded task body machine).2.world) :
    Kept rel' spared machine (Run.recorded task body machine).2 := by
  obtain ⟨⟨hprograms, hprogram, henv, hcalls⟩, hframes, _⟩ := hkept
  exact ⟨⟨hprograms, hprogram, henv, hcalls⟩, hframes, hworld⟩

/-- Writing down how a tidy evaluation begins and ends adds tidy moments. -/
theorem Run.kept_recorded {spared : Option FrameId} (task : Task)
    {body : Run (Watched World) Value} {machine : Machine (Watched World)}
    (hscope : machine.env ≠ [])
    (hkept : Kept Watched.StaysTidy spared (machine.began task)
      (body (machine.began task)).2) :
    Kept Watched.StaysTidy spared machine (recorded task body machine).2 := by
  obtain ⟨hprograms, hprogram, henv, hcalls⟩ := hkept.restored
  refine hkept.recorded fun htidy => ?_
  have hbegun : (machine.began task).world.Tidy := htidy.note hscope
  exact (hkept.world hbegun).note
    ⟨hscope, hprograms, hprogram, henv, hcalls⟩

theorem watch_isolating (natives : Natives World) (depth : Nat) :
    (watch natives depth).Isolating Watched.StaysTidy := by
  induction depth with
  | zero => exact Worker.keeps_halt .exhausted
  | succ depth ih =>
      have hperform := perform_isolating natives.along_watched ih
      exact ⟨fun id machine hscope => Run.kept_recorded _ hscope
          (hperform.expr id (machine.began _) hscope),
        fun id machine hscope => Run.kept_recorded _ hscope
          (hperform.stmt id (machine.began _) hscope),
        fun function args site machine hscope => Run.kept_recorded _ hscope
          (hperform.call function args site (machine.began _) hscope)⟩

section Uses

variable {rel : World → World → Prop} [IsPreorder World rel]
  {workers : Nat → Worker World}
  (hworkers : ∀ depth, (workers depth).Isolating rel)

include hworkers

theorem Worker.moves_script (script : Script) :
    Moves (Tidied rel) (Worker.script workers script) :=
  (still_read _).moves.bind fun depth =>
    Run.moves_catchReturn (Worker.moves_stmts (hworkers depth) script.body)

theorem Worker.moves_value (callee : Value) (args : Container Value) :
    Moves (Shielded rel) (Worker.value workers callee args) := by
  cases callee with
  | function id =>
      exact (still_read _).moves.bind fun depth => (hworkers depth).call _ _ _
  | _ => exact (Run.still_fault _).moves

theorem Use.moves_body (script : Script) (use : Use) :
    Moves (Tidied rel) (use.body workers script) := by
  cases use with
  | run => exact Worker.moves_script hworkers script
  | call callee args =>
      exact Worker.moves_of_outer (Worker.moves_value hworkers callee args)
  | define name value =>
      exact (Run.moves_bind _ value).bind fun _ => (still_pure _).moves
  | lookup name =>
      exact (Run.still_lookup? _).moves.bind fun _ => (still_pure _).moves
  | array content => exact Run.moves_newArray content
  | compose left right =>
      exact Moves.bind (Run.moves_compose left right)
        fun _ => (Run.still_ofExcept _).moves
  | native name => exact Run.moves_newNative name

end Uses

namespace Session

/-- Every interpreter has a scope with a frame. -/
def Scoped (session : Session World) : Prop :=
  ∀ runner ∈ session.runners, runner.env ≠ []

/-- Every interpreter is still there, in the same state, and the host has
moved along a relation. -/
structure KeepsRunners (rel : World → World → Prop)
    (before after : Session World) : Prop where
  scopes : after.Scoped
  runner_eq : ∀ (number : Nat) (runner : Runner),
    before.runners[number]? = some runner →
    after.runners[number]? = some runner
  world : rel before.world after.world

variable {rel : World → World → Prop} [IsPreorder World rel]

theorem scoped_start (world : World) : (start world).Scoped := by
  intro runner hrunner
  cases List.mem_singleton.mp hrunner
  exact List.cons_ne_nil _ _

theorem Scoped.refl {session : Session World} (hscoped : session.Scoped) :
    KeepsRunners rel session session :=
  ⟨hscoped, fun _ _ hrunner => hrunner, Std.Refl.refl session.world⟩

omit [IsPreorder World rel] in
theorem keepsRunners_addRunner {before session : Session World}
    (hkept : KeepsRunners rel before session) (script : Script)
    (program : Nat) (globals : List (String × Value)) (limit : Nat) :
    KeepsRunners rel before
      (session.addRunner script program globals limit) := by
  refine ⟨?_, ?_, hkept.world⟩
  · intro runner hrunner
    rcases List.mem_append.mp hrunner with hold | hnew
    · exact hkept.scopes runner hold
    · cases List.mem_singleton.mp hnew
      exact List.cons_ne_nil _ _
  · intro number runner hrunner
    have hsame := hkept.runner_eq number runner hrunner
    obtain ⟨hlt, _⟩ := List.getElem?_eq_some_iff.mp hsame
    exact (List.getElem?_append_left hlt).trans hsame

omit [IsPreorder World rel] in
/-- What an interpreter does leaves all interpreters as they are, itself
included. -/
theorem keepsRunners_resume {session : Session World}
    (hscoped : session.Scoped) {number : Nat} {runner : Runner}
    (hrunner : session.runners[number]? = some runner)
    {result : Outcome Exit Value × Machine World}
    (hkept : Kept rel (session.machine runner).env.innermost?
      (session.machine runner) result.2) :
    KeepsRunners rel session (session.resume number runner result) := by
  obtain ⟨hlt, hget⟩ := List.getElem?_eq_some_iff.mp hrunner
  have hsame : (session.resume number runner result).runners =
      session.runners := by
    change session.runners.set number { runner with
      program := result.2.program, env := result.2.env,
      calls := result.2.calls } = session.runners
    rw [hkept.restored.program, hkept.restored.env, hkept.restored.calls]
    change session.runners.set number runner = session.runners
    rw [← hget, List.set_getElem_self]
  refine ⟨?_, ?_, hkept.world⟩
  · intro other hother
    exact hscoped other (hsame ▸ hother)
  · intro other found hfound
    rw [hsame]
    exact hfound

theorem keepsRunners_serve {workers : Nat → Worker World}
    (hworkers : ∀ depth, (workers depth).Isolating rel)
    {session : Session World} (hscoped : session.Scoped) (request : Request) :
    KeepsRunners rel session (serve workers request session).2 := by
  cases request with
  | build tokens globals limit =>
      cases hparse : parse session.programs.size tokens with
      | ok parsed =>
          simp only [serve, hparse]
          have hpushed : KeepsRunners rel session { session with
              programs := session.programs.push parsed.program } :=
            ⟨hscoped, fun _ _ hrunner => hrunner,
              Std.Refl.refl session.world⟩
          exact keepsRunners_addRunner hpushed _ _ _ _
      | _ =>
          simp only [serve, hparse]
          exact hscoped.refl
  | rebuild number globals limit =>
      cases hrunner : session.runners[number]? with
      | some runner =>
          simp only [serve, hrunner]
          exact keepsRunners_addRunner hscoped.refl _ _ _ _
      | none =>
          simp only [serve, hrunner]
          exact hscoped.refl
  | use number use =>
      cases hrunner : session.runners[number]? with
      | some runner =>
          simp only [serve, hrunner]
          have hscope := hscoped runner (List.mem_of_getElem? hrunner)
          exact keepsRunners_resume hscoped hrunner
            (Use.moves_body hworkers runner.script use _ hscope)
      | none =>
          simp only [serve, hrunner]
          exact hscoped.refl

theorem KeepsRunners.trans {first second third : Session World}
    (hfirst : KeepsRunners rel first second)
    (hsecond : KeepsRunners rel second third) :
    KeepsRunners rel first third :=
  ⟨hsecond.scopes,
    fun number runner hrunner =>
      hsecond.runner_eq number runner (hfirst.runner_eq number runner hrunner),
    Trans.trans hfirst.world hsecond.world⟩

theorem keepsRunners_serveAll {workers : Nat → Worker World}
    (hworkers : ∀ depth, (workers depth).Isolating rel)
    {session : Session World} (hscoped : session.Scoped)
    (requests : List Request) :
    KeepsRunners rel session (session.serveAll workers requests) := by
  induction requests generalizing session with
  | nil => exact hscoped.refl
  | cons request rest ih =>
      have hserved := keepsRunners_serve hworkers hscoped request
      exact hserved.trans (ih hserved.scopes)

/-- The host of a watched session moves along a relation that its workers and
the notes about requests move along. -/
theorem world_history {natives : Natives World}
    {rel : Watched World → Watched World → Prop}
    [IsPreorder (Watched World) rel]
    (hworkers : ∀ depth, (watch natives depth).Isolating rel)
    (hserved : ∀ request session (watched : Watched World),
      rel watched (watched.note (.served request session)))
    (world : World) (requests : List Request) :
    rel ⟨world, []⟩ (history natives world requests).world := by
  suffices hfold : ∀ session : Session (Watched World), session.Scoped →
      rel session.world
        (requests.foldl (serveWatched natives) session).world from
    hfold _ (scoped_start _)
  induction requests with
  | nil => exact fun session _ => Std.Refl.refl session.world
  | cons request rest ih =>
      intro session hscoped
      have hkept := keepsRunners_serve hworkers hscoped request
      have hnoted : rel session.world
          (session.serveWatched natives request).world :=
        Trans.trans hkept.world (hserved request _ _)
      exact Trans.trans hnoted (ih _ hkept.scopes)

/-- All moments in the history of a session are tidy. -/
theorem tidy_history (natives : Natives World) (world : World)
    (requests : List Request) :
    (history natives world requests).world.Tidy :=
  have hstays : Watched.StaysTidy ⟨world, []⟩
      (history natives world requests).world :=
    world_history (watch_isolating natives)
      (fun _ _ _ htidy => htidy.note trivial) world requests
  hstays fun _ hmoment => absurd hmoment List.not_mem_nil

end Session

/-- A block gives everything back even where there is no scope around it. -/
theorem Worker.restored_block {worker : Worker World}
    (hworker : worker.Isolating AnyTwo) (block : Block)
    (machine : Machine World) :
    machine.Restored (worker.block block machine).2 :=
  (Run.kept_inFrame .empty (moves_stmts hworker block.stmts) machine).restored

/-- State restoration, for every session.  All expressions, statements and
calls that are evaluated in its course begin in a scope with a frame and
restore the scope, the running program and the active calls, however they end;
so do all blocks.  Whole scripts and calls from outside restore them as well,
and an interpreter is the same after all later requests. -/
theorem session_restores (natives : Natives World) (world : World)
    (requests later : List Request) :
    let session := (Session.start world).serveAll (evaluate natives) requests
    let history := Session.history natives world requests
    history.mapWorld Watched.world = session ∧
    (∀ moment ∈ history.world.past, moment.Tidy) ∧
    (∀ depth block (machine : Machine World),
      machine.Restored ((evaluate natives depth).block block machine).2) ∧
    (∀ runner ∈ session.runners,
      let machine := session.machine runner
      machine.Restored (runScript natives runner.script machine).2 ∧
      ∀ callee args,
        machine.Restored (callValue natives callee args machine).2) ∧
    (∀ (number : Nat) (runner : Runner),
      session.runners[number]? = some runner →
      (session.serveAll (evaluate natives) later).runners[number]? =
        some runner) := by
  intro session history
  have hworkers := evaluate_isolating natives.along_anyTwo
  have hkept := Session.keepsRunners_serveAll hworkers
    (Session.scoped_start world) requests
  refine ⟨Session.history_mapWorld natives world requests,
    Session.tidy_history natives world requests, ?_, ?_, ?_⟩
  · intro depth block machine
    exact Worker.restored_block (hworkers depth) block machine
  · intro runner hrunner machine
    have hscope : machine.env ≠ [] := hkept.scopes runner hrunner
    constructor
    · exact (Worker.moves_script hworkers runner.script machine
        hscope).restored
    · intro callee args
      exact (Worker.moves_value hworkers callee args machine hscope).restored
  · exact (Session.keepsRunners_serveAll hworkers hkept.scopes
      later).runner_eq

end ChainScript
