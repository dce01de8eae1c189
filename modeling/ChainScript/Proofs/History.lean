import ChainScript.Proofs.Agreement
import ChainScript.Session

/-
Sessions with a history.

A watched session does what the session itself does, and its host writes down
every moment at which an evaluation begins or ends and at which a request has
been served.  Statements about all moments of a session become statements about
what has been written down in the end.
-/

namespace ChainScript

open Step

variable {World Shown : Type}

namespace Session

/-- The session with another state of the host. -/
def mapWorld (view : World → Shown) (session : Session World) :
    Session Shown where
  heap := session.heap
  programs := session.programs
  world := view session.world
  runners := session.runners
  answers := session.answers

end Session

/-- Something that happens in a session. -/
inductive Moment (World : Type) where
  | begins (task : Task) (machine : Machine World)
  | ends (task : Task) (before : Machine World) (outcome : Outcome Exit Value)
      (after : Machine World)
  | served (request : Request) (session : Session World)

/-- The state of a host that writes down what happens, latest first. -/
structure Watched (World : Type) where
  world : World
  past : List (Moment World)

namespace Watched

/-- Write a moment down. -/
def note (moment : Moment World) (watched : Watched World) : Watched World :=
  { watched with past := moment :: watched.past }

end Watched

/-- The functions of a host, which take no notice of what is written down. -/
def Natives.watched (natives : Natives World) : Natives (Watched World) where
  reply name args heap watched :=
    (natives.reply name args heap watched.world).map fun world =>
      { watched with world }

/-- The machine on which a task has begun. -/
def Machine.began (task : Task) (machine : Machine (Watched World)) :
    Machine (Watched World) :=
  machine.mapWorld
    (Watched.note (.begins task (machine.mapWorld Watched.world)))

/-- Carry out a task and write down how it begins and ends. -/
def Run.recorded (task : Task) (body : Run (Watched World) Value) :
    Run (Watched World) Value :=
  fun machine =>
    let before := machine.mapWorld Watched.world
    let result := body (machine.mapWorld (Watched.note (.begins task before)))
    (result.1, result.2.mapWorld (Watched.note
      (.ends task before result.1 (result.2.mapWorld Watched.world))))

/-- Evaluation that writes down how each task begins and ends. -/
def watch (natives : Natives World) : Nat → Worker (Watched World)
  | 0, _ => Step.halt .exhausted
  | depth + 1, task =>
      Run.recorded task (perform natives.watched (watch natives depth) task)

namespace Session

/-- Serve a request and write down that it has been served. -/
def serveWatched (natives : Natives World) (session : Session (Watched World))
    (request : Request) : Session (Watched World) :=
  let after := (serve (watch natives) request session).2
  after.mapWorld (Watched.note
    (.served request (after.mapWorld Watched.world)))

/-- The history of a session: all requests served in order, on a machine that
writes down what happens. -/
def history (natives : Natives World) (world : World)
    (requests : List Request) : Session (Watched World) :=
  requests.foldl (serveWatched natives) (start ⟨world, []⟩)

end Session

theorem Natives.shownAs_watched (natives : Natives World) :
    natives.watched.ShownAs Watched.world natives := by
  intro name args heap watched
  change _ = ((natives.reply name args heap watched.world).map _).map _
  rw [Reply.map_map]
  exact (Reply.map_id _).symm

/-- What is written down makes no difference to what happens. -/
theorem watch_agree (natives : Natives World) (depth : Nat) :
    Worker.Agree Watched.world (fun _ => False) (watch natives depth)
      (evaluate natives depth) := by
  induction depth with
  | zero => exact fun _ _ => .inr rfl
  | succ depth ih =>
      intro task machine
      have hagree := perform_agree natives.shownAs_watched ih task
        (machine.mapWorld
          (Watched.note (.begins task (machine.mapWorld Watched.world))))
      rcases hagree with ⟨_, hloose, _⟩ | hend
      · exact hloose.elim
      · exact .inr hend

theorem Use.agrees_body {view : World → Shown} {loose : Halt → Prop}
    {workers : Nat → Worker World} {workers' : Nat → Worker Shown}
    (hagree : ∀ depth, Worker.Agree view loose (workers depth) (workers' depth))
    (script : Script) (use : Use) :
    Run.Agrees view loose (use.body workers script)
      (use.body workers' script) := by
  cases use with
  | run => exact Worker.agrees_script hagree script
  | call callee args => exact Worker.agrees_value hagree callee args
  | define name value =>
      exact (Run.agreement view loose).bind
        ((Run.agreement view loose).bindKey _ value) fun _ =>
          (Run.agreement view loose).pure _
  | lookup name =>
      exact (Run.agreement view loose).bind
        ((Run.agreement view loose).lookup? _) fun _ =>
          (Run.agreement view loose).pure _
  | array content => exact (Run.agreement view loose).withHeap _
  | compose left right =>
      exact (Run.agreement view loose).bind
        ((Run.agreement view loose).compose left right) fun result =>
          (Run.agreement view loose).ofExcept result
  | native name => exact (Run.agreement view loose).withHeap _

namespace Session

/-- Sessions whose workers agree serve a request alike. -/
theorem serve_mapWorld {view : World → Shown} {workers : Nat → Worker World}
    {workers' : Nat → Worker Shown}
    (hagree : ∀ depth, Worker.Agree view (fun _ => False) (workers depth)
      (workers' depth))
    (request : Request) (session : Session World) :
    serve workers' request (session.mapWorld view) =
      ((serve workers request session).1,
        (serve workers request session).2.mapWorld view) := by
  cases request with
  | build tokens globals limit =>
      have hsize : (session.mapWorld view).programs.size =
        session.programs.size := rfl
      cases hparse : parse session.programs.size tokens with
      | ok parsed =>
          simp only [serve, hsize, hparse]
          rfl
      | _ => simp only [serve, hsize, hparse]
  | rebuild number globals limit =>
      have hrunners : (session.mapWorld view).runners[number]? =
        session.runners[number]? := rfl
      cases hrunner : session.runners[number]? with
      | some runner =>
          simp only [serve, hrunners, hrunner]
          rfl
      | none => simp only [serve, hrunners, hrunner]
  | use number use =>
      have hrunners : (session.mapWorld view).runners[number]? =
        session.runners[number]? := rfl
      cases hrunner : session.runners[number]? with
      | none => simp only [serve, hrunners, hrunner]
      | some runner =>
          have hmachine : (session.mapWorld view).machine runner =
            (session.machine runner).mapWorld view := rfl
          have hbody := Use.agrees_body hagree runner.script use
            (session.machine runner)
          rcases hbody with ⟨_, hloose, _⟩ | hend
          · exact hloose.elim
          · simp only [serve, hrunners, hrunner, hmachine, hend]
            rfl

theorem mapWorld_serveWatched (natives : Natives World)
    (session : Session (Watched World)) (request : Request) :
    (session.serveWatched natives request).mapWorld Watched.world =
      (serve (evaluate natives) request
        (session.mapWorld Watched.world)).2 := by
  rw [serve_mapWorld (watch_agree natives) request session]
  rfl

/-- The history of a session is the session itself, apart from what has been
written down. -/
theorem history_mapWorld (natives : Natives World) (world : World)
    (requests : List Request) :
    (history natives world requests).mapWorld Watched.world =
      (start world).serveAll (evaluate natives) requests := by
  suffices hfold : ∀ session : Session (Watched World),
      (requests.foldl (serveWatched natives) session).mapWorld Watched.world =
        (session.mapWorld Watched.world).serveAll (evaluate natives)
          requests from
    hfold _
  induction requests with
  | nil => exact fun _ => rfl
  | cons request rest ih =>
      intro session
      simp only [List.foldl_cons, serveAll] at ih ⊢
      rw [ih, mapWorld_serveWatched]

end Session

end ChainScript
