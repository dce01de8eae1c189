import ChainScript.Proofs.ScopeRestoration
import ChainScript.Proofs.SignalFlow
import ChainScript.Proofs.SoundSessions

/-
What holds at every moment of a session, whatever its host does.

The code of each task is in the program that runs when the task begins, and the
same program runs when it ends.  Functions go from one interpreter to another,
but their definitions stay where they are, and so do the scripts of the
interpreters.  What may leave a task early is said of the same moments.
-/

namespace ChainScript

open Step Run

variable {World : Type} {odd : Signal → Prop}

/-- The code of a task is in the running program.  The definition of a function
is in the program that the function names. -/
def Task.CodeIn (machine : Machine World) : Task → Prop
  | .expr id =>
      ProgramIs machine.programs machine.program fun program =>
        program.ShowsExpr id
  | .stmt id =>
      ProgramIs machine.programs machine.program fun program =>
        ∃ inLoop, program.ShowsStmt inLoop id
  | .call id _ _ =>
      ∀ function, machine.heap.function? id = some function →
        function.body.DefinedIn machine.programs

/-- The signals that may leave a task. -/
def Task.signals (odd : Signal → Prop) : Task → Signal → Prop
  | .stmt _ => fun _ => True
  | _ => odd

namespace Session

/-- The scripts of all interpreters are in their programs. -/
def ScriptsIn (session : Session World) : Prop :=
  ∀ runner ∈ session.runners,
    ProgramIs session.programs runner.program fun program =>
      program.ShowsStmts false runner.script.body

end Session

namespace Moment

/-- Whatever is looked up for a task while it runs is looked up in the program
that its code is in. -/
def CodeIn : Moment World → Prop
  | .begins task machine => task.CodeIn machine
  | .ends _ before _ after =>
      after.programs = before.programs ∧ after.program = before.program
  | .served _ session => session.ScriptsIn

/-- No other signals than the odd ones leave an expression or a call. -/
def EndsWithin (odd : Signal → Prop) : Moment World → Prop
  | .ends task _ outcome _ => outcome.Within (task.signals odd) fun _ => True
  | _ => True

end Moment

namespace Watched

/-- All that has been written down is in order. -/
def Orderly (odd : Signal → Prop) (watched : Watched World) : Prop :=
  ∀ moment ∈ watched.past, moment.CodeIn ∧ moment.EndsWithin odd

end Watched

/-- The functions of a host answer with odd signals only. -/
def Natives.AnswerWithin (natives : Natives World) (odd : Signal → Prop) :
    Prop :=
  ∀ name args machine,
    (askHost natives name args machine).1.Within odd fun _ => True

theorem Natives.answerWithin_any (natives : Natives World) :
    natives.AnswerWithin fun _ => True := by
  intro name args machine
  rcases askHost natives name args machine with ⟨_ | exit | _, after⟩
  · trivial
  · exact fun _ _ => trivial
  · trivial

/-- A watching host minds what has been written down. -/
theorem Natives.AnswerWithin.watched {natives : Natives World}
    (hnatives : natives.AnswerWithin odd) :
    natives.watched.Minds (Watched.Orderly odd) odd where
  along := by
    intro name args heap watched
    exact Reply.leavesIn_map (Reply.leavesIn_of_forall (fun _ => id) _)
  within := by
    intro name args machine
    have hagree : Run.Agrees Watched.world (fun _ => False)
        (askHost natives.watched name args) (askHost natives name args) :=
      Run.agrees_askHost natives.shownAs_watched name args
    rcases hagree machine with ⟨_, hloose, _⟩ | hend
    · exact hloose.elim
    · have hwithin := hnatives name args (machine.mapWorld Watched.world)
      rwa [hend] at hwithin

/-- Writing down how a task in order begins and ends. -/
theorem Run.Ends.recorded {programs : Array Program} {number : Nat}
    {allowed : Signal → Prop} {task : Task} {body : Run (Watched World) Value}
    (hcode : ∀ machine : Machine World, machine.programs = programs →
      machine.program = number → machine.heap.DefinedIn programs →
      task.CodeIn machine)
    (hallowed : ∀ way, allowed way → task.signals odd way)
    (hbody : Ends ⟨programs, number, Watched.Orderly odd⟩ allowed body
      fun _ => True) :
    Ends ⟨programs, number, Watched.Orderly odd⟩ allowed (recorded task body)
      fun _ => True := by
  intro machine hin
  let before := machine.mapWorld Watched.world
  have hbegins : (Moment.begins task before).CodeIn :=
    hcode before hin.programs hin.program hin.defined
  have hbegun : (machine.world.note (.begins task before)).Orderly odd :=
    List.forall_mem_cons.mpr ⟨⟨hbegins, trivial⟩, hin.world⟩
  obtain ⟨hafter, hend⟩ := hbody
    (machine.mapWorld (Watched.note (.begins task before)))
    ⟨hin.programs, hin.program, hin.defined, hbegun⟩
  refine ⟨⟨hafter.programs, hafter.program, hafter.defined, ?_⟩, hend⟩
  refine List.forall_mem_cons.mpr ⟨⟨⟨?_, ?_⟩, ?_⟩, hafter.world⟩
  · exact hafter.programs.trans hin.programs.symm
  · exact hafter.program.trans hin.program.symm
  · generalize body
      (machine.mapWorld (Watched.note (.begins task before))) = result at hend
    rcases result with ⟨_ | exit | _, after⟩
    · trivial
    · exact fun way hway => hallowed way (hend way hway)
    · trivial

/-- Watched evaluation is orderly in every program. -/
theorem watch_orderly {natives : Natives World}
    (hnatives : natives.AnswerWithin odd) (depth : Nat)
    (programs : Array Program) (number : Nat) :
    (watch natives depth).Orderly ⟨programs, number, Watched.Orderly odd⟩
      odd := by
  induction depth generalizing number with
  | zero =>
      exact ⟨fun _ _ => ends_halt _, fun _ _ _ => ends_halt _,
        fun _ _ _ => ends_halt _⟩
  | succ depth ih =>
      have hperform : (perform natives.watched (watch natives depth)).Orderly
          ⟨programs, number, Watched.Orderly odd⟩ odd :=
        Worker.Orderly.perform hnatives.watched fun other => ih other
      refine ⟨fun id hid => ?_, fun inLoop id hid => ?_,
        fun function args site => ?_⟩
      · refine (hperform.expr id hid).recorded ?_ fun _ hodd => hodd
        rintro machine rfl rfl _
        exact hid
      · refine (hperform.stmt inLoop id hid).recorded ?_ fun _ _ => trivial
        rintro machine rfl rfl _
        obtain ⟨program, hprogram, hnumber, hshows⟩ := hid
        exact ⟨program, hprogram, hnumber, inLoop, hshows⟩
      · refine (hperform.call function args site).recorded ?_ fun _ hodd => hodd
        rintro machine rfl rfl hdefined other hother
        exact hdefined other (Array.mem_of_getElem? hother)

section Uses

variable {workers : Nat → Worker World} {stage : Stage World}
  (hworkers : ∀ depth, (workers depth).Orderly stage odd)

include hworkers

theorem Worker.ends_script {running : Program} (hruns : stage.Runs running)
    {script : Script} (hscript : running.ShowsStmts false script.body) :
    Ends stage odd (Worker.script workers script) fun _ => True := by
  have hread : Ends stage odd (Step.read Machine.depthBound) fun _ => True :=
    ends_read fun _ _ => trivial
  exact hread.bind fun depth _ =>
    (Worker.ends_stmts (hworkers depth) hruns hscript).catchReturn

theorem Worker.ends_value (callee : Value) (args : Container Value) :
    Ends stage odd (Worker.value workers callee args) fun _ => True := by
  cases callee with
  | function id =>
      have hread : Ends stage odd (Step.read Machine.depthBound)
          fun _ => True :=
        ends_read fun _ _ => trivial
      exact hread.bind fun depth _ => (hworkers depth).call id args none
  | _ => exact ends_fault _

theorem Use.ends_body {running : Program} (hruns : stage.Runs running)
    {script : Script} (hscript : running.ShowsStmts false script.body)
    (use : Use) :
    Ends stage odd (use.body workers script) fun _ => True := by
  cases use with
  | run => exact Worker.ends_script hworkers hruns hscript
  | call callee args => exact Worker.ends_value hworkers callee args
  | define name value =>
      exact (ends_bind _ _).bind fun _ _ => ends_pure trivial
  | lookup name =>
      have hread : Ends stage odd (lookup? (.badge name)) fun _ => True :=
        ends_read fun _ _ => trivial
      exact hread.bind fun _ _ => ends_pure trivial
  | array content => exact ends_newArray content
  | compose left right =>
      exact (ends_compose left right).bind fun result _ => ends_ofExcept result
  | native name => exact ends_newNative name

end Uses

/-- A program that is there is also there when one more has been added. -/
theorem ProgramIs.push {programs : Array Program} {number : Nat}
    {form : Program → Prop} (hthere : ProgramIs programs number form)
    (added : Program) : ProgramIs (programs.push added) number form := by
  obtain ⟨program, hprogram, hrest⟩ := hthere
  exact ⟨program, getElem?_push_of_some hprogram, hrest⟩

theorem Heap.DefinedIn.push {programs : Array Program} {heap : Heap}
    (hdefined : heap.DefinedIn programs) (added : Program) :
    heap.DefinedIn (programs.push added) := by
  intro function hfunction
  have hbody := hdefined function hfunction
  revert hbody
  cases function.body with
  | native => exact id
  | script => exact fun hbody => ProgramIs.push hbody added

/-- A script that has just been parsed is in the program that has been added
for it. -/
theorem programIs_parsed {programs : Array Program} {tokens : List Token}
    {parsed : ParsedScript} (hparse : parse programs.size tokens = .ok parsed) :
    ProgramIs (programs.push parsed.program) programs.size fun program =>
      program.ShowsStmts false parsed.script.body :=
  ⟨parsed.program, Array.getElem?_push_size, (parse_built hparse).2.1,
    parse_shows hparse⟩

namespace Session

/-- Programs were built row by row and have numbers of their own, all functions
and scripts of a session are in their programs, and its history is in order. -/
structure Orderly (odd : Signal → Prop) (session : Session (Watched World)) :
    Prop where
  programs : SoundPrograms session.programs
  defined : session.heap.DefinedIn session.programs
  scripts : session.ScriptsIn
  world : session.world.Orderly odd

theorem orderly_start (world : World) :
    (start (⟨world, []⟩ : Watched World)).Orderly odd where
  programs := soundPrograms_empty
  defined := fun _ hfunction => absurd hfunction (Array.not_mem_empty _)
  scripts := fun runner hrunner => by
    rw [List.mem_singleton.mp hrunner]
    exact ⟨.empty 0, rfl, rfl, .done, [], rfl, rfl⟩
  world := fun _ hmoment => absurd hmoment List.not_mem_nil

theorem Orderly.addRunner {session : Session (Watched World)}
    (horderly : session.Orderly odd) {script : Script} {number : Nat}
    (hscript : ProgramIs session.programs number fun program =>
      program.ShowsStmts false script.body)
    (globals : List (String × Value)) (limit : Nat) :
    (session.addRunner script number globals limit).Orderly odd where
  programs := horderly.programs
  defined := horderly.defined.congr rfl
  scripts := fun runner hrunner => by
    rcases List.mem_append.mp hrunner with hold | hnew
    · exact horderly.scripts runner hold
    · rw [List.mem_singleton.mp hnew]
      exact hscript
  world := horderly.world

variable {natives : Natives World}

/-- A use ends with odd signals only, and everything is in order after it. -/
theorem Orderly.use (hnatives : natives.AnswerWithin odd)
    {session : Session (Watched World)} (horderly : session.Orderly odd)
    {runner : Runner} (hrunner : runner ∈ session.runners) (use : Use) :
    let result := use.body (watch natives) runner.script
      (session.machine runner)
    result.2.In ⟨session.programs, runner.program, Watched.Orderly odd⟩ ∧
      result.1.Within odd fun _ => True := by
  obtain ⟨program, hprogram, hnumber, hshows⟩ :=
    horderly.scripts runner hrunner
  have hworkers : ∀ depth, (watch natives depth).Orderly
      ⟨session.programs, runner.program, Watched.Orderly odd⟩ odd :=
    fun depth => watch_orderly hnatives depth _ _
  exact Use.ends_body hworkers ⟨hprogram, hnumber⟩ hshows use
    (session.machine runner) ⟨rfl, rfl, horderly.defined, horderly.world⟩

theorem Orderly.serve (hnatives : natives.AnswerWithin odd)
    {session : Session (Watched World)} (horderly : session.Orderly odd)
    (request : Request) :
    (serve (watch natives) request session).2.Orderly odd := by
  cases request with
  | build tokens globals limit =>
      cases hparse : parse session.programs.size tokens with
      | ok parsed =>
          simp only [Session.serve, hparse]
          obtain ⟨hbuilt, hnumber, _⟩ := parse_built hparse
          have hpushed : Session.Orderly odd { session with
              programs := session.programs.push parsed.program } :=
            ⟨horderly.programs.push hbuilt hnumber, horderly.defined.push _,
              fun runner hrunner => (horderly.scripts runner hrunner).push _,
              horderly.world⟩
          exact hpushed.addRunner (programIs_parsed hparse) globals limit
      | _ =>
          simp only [Session.serve, hparse]
          exact horderly
  | rebuild number globals limit =>
      cases hrunner : session.runners[number]? with
      | some runner =>
          simp only [Session.serve, hrunner]
          exact horderly.addRunner
            (horderly.scripts runner (List.mem_of_getElem? hrunner)) globals
            limit
      | none =>
          simp only [Session.serve, hrunner]
          exact horderly
  | use number use =>
      cases hrunner : session.runners[number]? with
      | some runner =>
          obtain ⟨hin, _⟩ := horderly.use hnatives
            (List.mem_of_getElem? hrunner) use
          simp only [Session.serve, hrunner]
          refine ⟨?_, ?_, fun other hother => ?_, hin.world⟩
          · change SoundPrograms (Machine.programs _)
            rw [hin.programs]
            exact horderly.programs
          · change Heap.DefinedIn (Machine.programs _) _
            rw [hin.programs]
            exact hin.defined
          · change ProgramIs (Machine.programs _) _ _
            rw [hin.programs]
            rcases List.mem_or_eq_of_mem_set hother with hold | rfl
            · exact horderly.scripts other hold
            · change ProgramIs _ (Machine.program _) _
              rw [hin.program]
              exact horderly.scripts runner (List.mem_of_getElem? hrunner)
      | none =>
          simp only [Session.serve, hrunner]
          exact horderly

/-- The history of every session is in order. -/
theorem orderly_history (hnatives : natives.AnswerWithin odd) (world : World)
    (requests : List Request) :
    (history natives world requests).Orderly odd := by
  suffices hfold : ∀ session : Session (Watched World), session.Orderly odd →
      (requests.foldl (serveWatched natives) session).Orderly odd from
    hfold _ (orderly_start world)
  induction requests with
  | nil => exact fun _ horderly => horderly
  | cons request rest ih =>
      intro session horderly
      have hserved := horderly.serve hnatives request
      refine ih _ ⟨hserved.programs, hserved.defined, hserved.scripts, ?_⟩
      exact List.forall_mem_cons.mpr ⟨⟨hserved.scripts, trivial⟩, hserved.world⟩

end Session

end ChainScript
