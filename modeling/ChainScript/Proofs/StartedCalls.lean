import ChainScript.Proofs.ScopeRestoration

/-
Which functions start, and within which others.

A call can be refused before the function starts, when there is no room for it
or when its arguments do not fit.  A traced evaluation does what the evaluation
itself does, and its host writes down every function whose own code starts, and
on which level: a function that another one calls is one level deeper.
-/

namespace ChainScript

open Step Machine

variable {World α : Type}

/-- A function whose code starts, and the number of functions that are running
then, itself included. -/
structure Start where
  function : FunctionId
  level : Nat
deriving Repr, DecidableEq

/-- The state of a host that writes down which functions start, latest
first. -/
structure Traced (World : Type) where
  world : World
  level : Nat
  started : List Start
deriving Repr, DecidableEq

namespace Traced

/-- A function starts. -/
def start (function : FunctionId) (traced : Traced World) : Traced World :=
  { traced with
    level := traced.level + 1
    started := ⟨function, traced.level + 1⟩ :: traced.started }

/-- A function ends. -/
def «end» (level : Nat) (traced : Traced World) : Traced World :=
  { traced with level }

/-- Whatever starts does so within the running functions, and has ended. -/
structure Within (before after : Traced World) : Prop where
  level_eq : after.level = before.level
  started : ∃ inner, after.started = inner ++ before.started ∧
    ∀ start ∈ inner, before.level < start.level

instance : IsPreorder (Traced World) Within where
  refl _ := ⟨rfl, [], rfl, fun _ hstart => absurd hstart List.not_mem_nil⟩
  trans := by
    rintro first second third ⟨hlevel, early, hearly, hdeep⟩
      ⟨hlevel', late, hlate, hdeep'⟩
    refine ⟨hlevel'.trans hlevel, late ++ early, ?_, ?_⟩
    · rw [hlate, hearly, List.append_assoc]
    · intro start hstart
      rcases List.mem_append.mp hstart with hlate | hearly
      · exact hlevel ▸ hdeep' start hlate
      · exact hdeep start hearly

end Traced

/-- The functions of a host, which take no notice of what is written down. -/
def Natives.traced (natives : Natives World) : Natives (Traced World) where
  reply name args heap traced :=
    (natives.reply name args heap traced.world).map fun world =>
      { traced with world }

/-- Run the code of a function and write down that it starts. -/
def Run.starting (function : FunctionId) (body : Run (Traced World) α) :
    Run (Traced World) α :=
  fun machine =>
    let result := body (machine.mapWorld (Traced.start function))
    (result.1, result.2.mapWorld (Traced.end machine.world.level))

namespace Worker

variable (worker : Worker (Traced World))

/-- Call a function of a program.  It starts when its parameters are bound. -/
def tracedScript (id : FunctionId) (name : String) (number : Nat)
    (definition : FuncId) (captured : Chain) (args : Container Value) :
    Run (Traced World) Value := do
  let program ←
    Step.found (← Step.read fun machine => machine.programs[number]?)
  let func ← Step.found (program.func? definition)
  let params ← Step.found (program.params? func.params)
  let bindings ← Run.ofExcept
    (bindArguments (functionLabel name) params args)
  let content ← callFrame .empty bindings.supplied
  Run.starting id
    (worker.runBody number func captured content bindings.defaults)

/-- Call a function.  One of the host starts when it is asked. -/
def tracedCall (natives : Natives World) (id : FunctionId)
    (args : Container Value) (site : Option Span) :
    Run (Traced World) Value := do
  let function ← Step.found (← Run.readHeap fun heap => heap.function? id)
  let args := function.bound.expand args.entries
  Run.inCall ⟨function.name, site⟩ <|
    match function.body with
    | .native =>
        Run.starting id (Run.askHost natives.traced function.name args)
    | .script number definition captured =>
        worker.tracedScript id function.name number definition captured args

end Worker

/-- Evaluation that writes down which functions start. -/
def trace (natives : Natives World) : Nat → Worker (Traced World)
  | 0, _ => Step.halt .exhausted
  | depth + 1, .call function args site =>
      (trace natives depth).tracedCall natives function args site
  | depth + 1, task => perform natives.traced (trace natives depth) task

theorem Natives.shownAs_traced (natives : Natives World) :
    natives.traced.ShownAs Traced.world natives := by
  intro name args heap traced
  change _ = ((natives.reply name args heap traced.world).map _).map _
  rw [Reply.map_map]
  exact (Reply.map_id _).symm

theorem Run.Agrees.starting {loose : Halt → Prop} (function : FunctionId)
    {first : Run (Traced World) α} {second : Run World α}
    (hagree : Agrees Traced.world loose first second) :
    Agrees Traced.world loose (starting function first) second :=
  fun machine => hagree (machine.mapWorld (Traced.start function))

theorem Worker.agrees_tracedScript {loose : Halt → Prop}
    {first : Worker (Traced World)} {second : Worker World}
    (hagree : Agree Traced.world loose first second) (id : FunctionId)
    (name : String) (number : Nat) (definition : FuncId) (captured : Chain)
    (args : Container Value) :
    Run.Agrees Traced.world loose
      (first.tracedScript id name number definition captured args)
      (second.callScript name number definition captured args) := by
  apply (Run.agreement _ loose).bind
    ((Run.agreement _ loose).programAt number)
  intro row
  apply (Run.agreement _ loose).bind ((Run.agreement _ loose).found row)
  intro program
  apply (Run.agreement _ loose).bind ((Run.agreement _ loose).found _)
  intro func
  apply (Run.agreement _ loose).bind ((Run.agreement _ loose).found _)
  intro params
  apply (Run.agreement _ loose).bind ((Run.agreement _ loose).ofExcept _)
  intro bindings
  apply (Run.agreement _ loose).bind ((Run.agreement _ loose).callFrame _ _)
  intro content
  have hbody : Run.Agrees Traced.world loose _ _ :=
    Comparison.Workers.runBody hagree number func captured content
      bindings.defaults
  exact hbody.starting id

theorem Worker.agrees_tracedCall {loose : Halt → Prop}
    {first : Worker (Traced World)} {second : Worker World}
    (hagree : Agree Traced.world loose first second)
    (natives : Natives World) (id : FunctionId) (args : Container Value)
    (site : Option Span) :
    Run.Agrees Traced.world loose (first.tracedCall natives id args site)
      (second.evalCall natives id args site) := by
  apply (Run.agreement _ loose).bind ((Run.agreement _ loose).readHeap _)
  intro row
  apply (Run.agreement _ loose).bind ((Run.agreement _ loose).found row)
  intro function
  apply Run.Agrees.inCall _
  cases function.body with
  | native =>
      exact (Run.agrees_askHost natives.shownAs_traced function.name
        _).starting id
  | script number definition captured =>
      exact agrees_tracedScript hagree id function.name _ _ _ _

/-- What is written down makes no difference to what happens. -/
theorem trace_agree (natives : Natives World) (depth : Nat) :
    Worker.Agree Traced.world (fun _ => False) (trace natives depth)
      (evaluate natives depth) := by
  induction depth with
  | zero => exact fun _ _ => .inr rfl
  | succ depth ih =>
      intro task
      cases task with
      | call function args site =>
          exact Worker.agrees_tracedCall ih natives function args site
      | expr id => exact perform_agree natives.shownAs_traced ih (.expr id)
      | stmt id => exact perform_agree natives.shownAs_traced ih (.stmt id)

theorem trace_mapWorld (natives : Natives World) (depth : Nat) (task : Task)
    (machine : Machine (Traced World)) :
    evaluate natives depth task (machine.mapWorld Traced.world) =
      ((trace natives depth task machine).1,
        (trace natives depth task machine).2.mapWorld Traced.world) := by
  rcases trace_agree natives depth task machine with ⟨_, hloose, _⟩ | hend
  · exact hloose.elim
  · exact hend

theorem Natives.along_traced (natives : Natives World) :
    natives.traced.Along Traced.Within := by
  intro name args heap traced
  refine Reply.leavesIn_map (Reply.leavesIn_of_forall (fun world => ?_) _)
  exact ⟨rfl, [], rfl, fun _ hstart => absurd hstart List.not_mem_nil⟩

/-- The code of a function starts it, and whatever starts besides is
deeper. -/
theorem Run.started_starting {body : Run (Traced World) α}
    (hbody : Moves (Shielded Traced.Within) body) (function : FunctionId)
    {machine : Machine (Traced World)} (hscope : machine.env ≠ []) :
    ∃ inner,
      (starting function body machine).2.world.started =
          inner ++ ⟨function, machine.world.level + 1⟩ ::
            machine.world.started ∧
        ∀ start ∈ inner, machine.world.level + 1 < start.level :=
  (hbody (machine.mapWorld (Traced.start function)) hscope).world.started

theorem Run.moves_starting {body : Run (Traced World) α}
    (hbody : Moves (Shielded Traced.Within) body) (function : FunctionId) :
    Moves (Shielded Traced.Within) (starting function body) := by
  intro machine hscope
  have hkept := hbody (machine.mapWorld (Traced.start function)) hscope
  obtain ⟨inner, hstarted, hdeep⟩ :=
    started_starting hbody function hscope
  have hrestored := hkept.restored
  refine ⟨⟨hrestored.programs, hrestored.program, hrestored.env,
    hrestored.calls⟩, hkept.frames, rfl,
    inner ++ [⟨function, machine.world.level + 1⟩], ?_, ?_⟩
  · rw [hstarted, List.append_assoc]
    rfl
  · intro start hstart
    rcases List.mem_append.mp hstart with hinner | hown
    · exact Nat.lt_trans (Nat.lt_succ_self _) (hdeep start hinner)
    · exact List.mem_singleton.mp hown ▸ Nat.lt_succ_self _

namespace Worker

variable {worker : Worker (Traced World)}
  (hworker : worker.Isolating Traced.Within)

include hworker

theorem moves_tracedScript (id : FunctionId) (name : String) (number : Nat)
    (definition : FuncId) (captured : Chain) (args : Container Value) :
    Moves (Shielded Traced.Within)
      (worker.tracedScript id name number definition captured args) := by
  refine (still_read _).moves.bind fun _ => ?_
  refine (still_found _).moves.bind fun program => ?_
  refine (still_found _).moves.bind fun func => ?_
  refine (still_found _).moves.bind fun params => ?_
  refine (Run.still_ofExcept _).moves.bind fun bindings => ?_
  exact (moves_callFrame _ _).bind fun content =>
    Run.moves_starting
      (moves_runBody hworker number func captured content bindings.defaults) id

theorem moves_tracedCall (natives : Natives World) (id : FunctionId)
    (args : Container Value) (site : Option Span) :
    Moves (Shielded Traced.Within)
      (worker.tracedCall natives id args site) := by
  refine (still_read _).moves.bind fun _ => ?_
  refine (still_found _).moves.bind fun function => ?_
  apply Run.moves_inCall _
  split
  · exact Run.moves_starting
      (Run.moves_askHost natives.along_traced function.name _) id
  · exact moves_tracedScript hworker id function.name _ _ _ _

end Worker

/-- All that starts in an evaluation starts within the functions that run, and
has ended when the evaluation has. -/
theorem trace_isolating (natives : Natives World) (depth : Nat) :
    (trace natives depth).Isolating Traced.Within := by
  induction depth with
  | zero => exact Worker.keeps_halt .exhausted
  | succ depth ih =>
      have hperform := perform_isolating natives.along_traced ih
      exact ⟨hperform.expr, hperform.stmt, fun function args site =>
        Worker.moves_tracedCall ih natives function args site⟩

end ChainScript
