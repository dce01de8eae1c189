import ChainScript.Proofs.ContainerLaws
import ChainScript.Proofs.ScopeRestoration

/-
What a frame holds, as the outcome of what has been bound in it.

A watched run writes down how every expression and statement ends, and with that
which key has been bound to which value, and in which frame.  While a frame is
the innermost one of the scope, nothing but these bindings changes it: the
entries that it had, with the bindings set in order, are the entries that it
has.
-/

namespace ChainScript

open Step Machine

variable {World α β : Type}

/-- The key that a task binds when it ends with a value. -/
def Program.binds? (program : Program) : Task → Option Key
  | .expr id => (program.expr? id).bind fun expr => expr.kind.binds?
  | .stmt id => (program.stmt? id).bind fun stmt =>
      stmt.kind.binds?.map Key.badge
  | .call .. => none

/-- The key that a task of the running program binds. -/
def Machine.binds? (machine : Machine World) (task : Task) : Option Key :=
  machine.programs[machine.program]?.bind fun program => program.binds? task

/-- What is bound at the end: the value, if there is one and a key for it. -/
def Outcome.boundTo? (key? : Option Key) :
    Outcome Exit Value → Option (Key × Value)
  | .ok value => key?.map fun key => (key, value)
  | _ => none

/-- The key and the value that a task has bound in a frame when it has ended. -/
def Machine.bound? (frame : FrameId) (task : Task) (machine : Machine World)
    (outcome : Outcome Exit Value) : Option (Key × Value) :=
  if machine.env.innermost? = some frame then
    outcome.boundTo? (machine.binds? task)
  else none

def Moment.bindsIn? (frame : FrameId) : Moment World → Option (Key × Value)
  | .ends task before outcome _ => before.bound? frame task outcome
  | _ => none

/-- What has been bound in a frame, in order.  Moments are given latest
first. -/
def bindings (frame : FrameId) (past : List (Moment World)) :
    List (Key × Value) :=
  (past.filterMap (Moment.bindsIn? frame)).reverse

@[simp] theorem bindings_nil (frame : FrameId) :
    bindings frame ([] : List (Moment World)) = [] :=
  rfl

theorem bindings_append (frame : FrameId) (late early : List (Moment World)) :
    bindings frame (late ++ early) =
      bindings frame early ++ bindings frame late := by
  simp [bindings]

theorem bindings_cons (frame : FrameId) (moment : Moment World)
    (past : List (Moment World)) :
    bindings frame (moment :: past) =
      bindings frame past ++ (moment.bindsIn? frame).toList := by
  cases hbinds : moment.bindsIn? frame <;> simp [bindings, hbinds]

theorem Outcome.boundTo?_none (outcome : Outcome Exit Value) :
    outcome.boundTo? none = none := by
  cases outcome <;> rfl

theorem Machine.bound?_of_ne {frame : FrameId} {machine : Machine World}
    (hne : machine.env.innermost? ≠ some frame) (task : Task)
    (outcome : Outcome Exit Value) :
    machine.bound? frame task outcome = none :=
  if_neg hne

theorem Machine.bound?_of_binds? {machine : Machine World} {task : Task}
    (hnone : machine.binds? task = none) (frame : FrameId)
    (outcome : Outcome Exit Value) :
    machine.bound? frame task outcome = none := by
  unfold bound?
  rw [hnone, Outcome.boundTo?_none, ite_self]

section Notes

/-- Frames are kept, with one frame spared, and what has been bound in the
meantime has been bound in the spared frame or in new ones. -/
structure Machine.Noted (spared : Option FrameId)
    (before after : Machine (Watched World)) : Prop where
  kept : Kept AnyTwo spared before after
  past : ∃ late, after.world.past = late ++ before.world.past ∧
    ∀ frame < before.heap.frames.size, spared ≠ some frame →
      bindings frame late = []

/-- Code in a scope binds in the innermost frame of the scope or in new
frames. -/
def Machine.NotedInside (before after : Machine (Watched World)) : Prop :=
  before.env ≠ [] → Noted before.env.innermost? before after

/-- Code with a scope of its own binds in new frames. -/
def Machine.NotedAside (before after : Machine (Watched World)) : Prop :=
  before.env ≠ [] → Noted none before after

variable {spared : Option FrameId}
  {first second third : Machine (Watched World)}

theorem Machine.Noted.trans (hfirst : Noted spared first second)
    (hsecond : Noted spared second third) : Noted spared first third := by
  obtain ⟨hkept, late, hpast, hbindings⟩ := hfirst
  obtain ⟨hkept', later, hpast', hbindings'⟩ := hsecond
  refine ⟨hkept.trans hkept', later ++ late, ?_, fun frame hframe hne => ?_⟩
  · rw [hpast', hpast, List.append_assoc]
  · have hframe' := Nat.lt_of_lt_of_le hframe hkept.frames.size_le
    rw [bindings_append, hbindings frame hframe hne,
      hbindings' frame hframe' hne, List.append_nil]

theorem Machine.Noted.of_made (machine : Machine (Watched World)) {heap : Heap}
    (hmade : machine.heap.KeptBut none heap) :
    Noted spared machine { machine with heap } :=
  ⟨⟨⟨rfl, rfl, rfl, rfl⟩, hmade.of_none, trivial⟩, [], rfl, fun _ _ _ => rfl⟩

theorem Machine.Noted.of_none (hnoted : Noted none first second) :
    Noted spared first second := by
  obtain ⟨hkept, late, hpast, hbindings⟩ := hnoted
  exact ⟨{ hkept with frames := hkept.frames.of_none }, late, hpast,
    fun frame hframe _ => hbindings frame hframe nofun⟩

instance : Allowance (@NotedInside World) where
  tidied hnoted hscope := (hnoted hscope).kept
  trans hfirst hsecond hscope := by
    have hnoted := hfirst hscope
    have henv := hnoted.kept.restored.env
    have hnoted' := hsecond (henv ▸ hscope)
    rw [henv] at hnoted'
    exact hnoted.trans hnoted'
  made machine _ hmade _ := .of_made machine hmade

instance : Allowance (@NotedAside World) where
  tidied hnoted hscope :=
    { (hnoted hscope).kept with frames := (hnoted hscope).kept.frames.of_none }
  trans hfirst hsecond hscope := by
    have hnoted := hfirst hscope
    exact hnoted.trans (hsecond (hnoted.kept.restored.env ▸ hscope))
  made machine _ hmade _ := .of_made machine hmade

/-- New frames are none of the old ones, whatever has been bound there. -/
theorem Machine.Noted.restart {link : Link} {chain : Chain} {number : Nat}
    {heap : Heap} {machine after : Machine (Watched World)}
    (hmade : machine.heap.KeptBut none heap)
    (hfresh : machine.heap.frames.size ≤ link.frame)
    (hnoted : Noted (some link.frame)
      { machine with heap, program := number, env := link :: chain } after) :
    ∃ late, after.world.past = late ++ machine.world.past ∧
      ∀ frame < machine.heap.frames.size, bindings frame late = [] := by
  obtain ⟨_, late, hpast, hbindings⟩ := hnoted
  refine ⟨late, hpast, fun frame hframe => hbindings frame ?_ fun heq => ?_⟩
  · exact Nat.lt_of_lt_of_le hframe hmade.size_le
  · cases heq
    exact Nat.not_lt.mpr hfresh hframe

theorem Run.tidied_of_noted {body : Run (Watched World) α}
    (hbody : Moves NotedInside body) : Moves (Tidied AnyTwo) body :=
  hbody.mono fun _ _ => Allowance.tidied

theorem Run.shielded_of_noted {body : Run (Watched World) α}
    (hbody : Moves NotedAside body) : Moves (Shielded AnyTwo) body :=
  hbody.mono fun _ _ hnoted hscope => (hnoted hscope).kept

instance : Discipline (@NotedInside World) NotedAside where
  weaken hnoted hscope := (hnoted hscope).of_none
  bind key value machine hscope :=
    ⟨Run.moves_bind key value machine hscope, [], rfl, fun _ _ _ => rfl⟩
  inScope hbody machine heap number link chain hmade hfresh _ _ := by
    have hnoted := hbody
      { machine with heap, program := number, env := link :: chain }
      (List.cons_ne_nil link chain)
    obtain ⟨late, hpast, hbindings⟩ := hnoted.restart hmade hfresh
    exact ⟨Run.kept_inScope (Run.tidied_of_noted hbody) machine number link
      chain hmade hfresh, late, hpast, fun frame hframe _ =>
        hbindings frame hframe⟩
  inCall {_ body} hbody call machine hscope := by
    refine ⟨Run.moves_inCall call (Run.shielded_of_noted hbody) machine hscope,
      ?_⟩
    cases hpush : machine.calls.push call with
    | error cause =>
        rw [Run.inCall_of_error hpush]
        exact ⟨[], rfl, fun _ _ _ => rfl⟩
    | ok calls =>
        rw [Run.inCall_of_ok hpush]
        simp only [Run.snd_noting]
        exact (hbody { machine with calls } hscope).past

/-- The host does not write down what is bound. -/
def Watched.SamePast (before after : Watched World) : Prop :=
  after.past = before.past

instance : IsPreorder (Watched World) Watched.SamePast where
  refl _ := rfl
  trans _ _ _ hfirst hsecond := hsecond.trans hfirst

theorem Run.noted_askHost (natives : Natives World) (name : String)
    (args : Container Value) :
    Moves NotedAside (askHost natives.watched name args) := by
  have halong : natives.watched.Along Watched.SamePast :=
    fun name args heap watched =>
      Reply.leavesIn_map (Reply.leavesIn_of_forall (fun _ => rfl) _)
  intro machine hscope
  have hkept := Run.moves_askHost halong name args machine hscope
  exact ⟨{ hkept with world := trivial }, [], hkept.world, fun _ _ _ => rfl⟩

/-- A task binds what has been bound in the course of it, and then perhaps a
key of its own. -/
theorem Run.past_recorded {task : Task} {body : Run (Watched World) Value}
    {machine : Machine (Watched World)} {late : List (Moment World)}
    (hpast : (body (machine.began task)).2.world.past =
      late ++ (machine.began task).world.past) :
    ∃ all, (recorded task body machine).2.world.past =
        all ++ machine.world.past ∧
      ∀ frame, bindings frame all = bindings frame late ++
        ((machine.mapWorld Watched.world).bound? frame task
          (body (machine.began task)).1).toList := by
  let before := machine.mapWorld Watched.world
  let result := body (machine.began task)
  refine ⟨.ends task before result.1 (result.2.mapWorld Watched.world) ::
    (late ++ [.begins task before]), ?_, fun frame => ?_⟩
  · have hbegan : (machine.began task).world.past =
        .begins task before :: machine.world.past := rfl
    have hlate : result.2.world.past =
        late ++ [.begins task before] ++ machine.world.past := by
      rw [hpast, hbegan, List.append_assoc, List.singleton_append]
    exact congrArg (List.cons _) hlate
  · rw [bindings_cons, bindings_append]
    rfl

theorem Machine.Noted.recorded {task : Task}
    {body : Run (Watched World) Value} {machine : Machine (Watched World)}
    (hnoted : Noted spared (machine.began task)
      (body (machine.began task)).2)
    (hplace : machine.binds? task = none ∨
      machine.env.innermost? = spared) :
    Noted spared machine (Run.recorded task body machine).2 := by
  obtain ⟨hkept, late, hpast, hbindings⟩ := hnoted
  obtain ⟨all, hall, hbound⟩ := Run.past_recorded hpast
  refine ⟨hkept.recorded trivial, all, hall, fun frame hframe hne => ?_⟩
  rw [hbound, hbindings frame hframe hne, List.nil_append,
    Option.toList_eq_nil_iff]
  rcases hplace with hnone | hspared
  · exact Machine.bound?_of_binds? hnone frame _
  · exact Machine.bound?_of_ne (hspared ▸ hne) task _

theorem watch_noted (natives : Natives World) (depth : Nat) :
    (watch natives depth).Keeps NotedInside NotedAside := by
  induction depth with
  | zero => exact Worker.keeps_halt .exhausted
  | succ depth ih =>
      have hperform := perform_keeps (Run.noted_askHost natives) ih
      refine ⟨fun id machine hscope => ?_, fun id machine hscope => ?_,
        fun function args site machine hscope => ?_⟩
      · exact (hperform.expr id (machine.began _) hscope).recorded (.inr rfl)
      · exact (hperform.stmt id (machine.began _) hscope).recorded (.inr rfl)
      · refine (hperform.call function args site (machine.began _)
          hscope).recorded (.inl ?_)
        unfold Machine.binds?
        cases machine.programs[machine.program]? <;> rfl

end Notes

theorem Chain.ne_nil_of_innermost? {chain : Chain} {frame : FrameId}
    (hinnermost : chain.innermost? = some frame) : chain ≠ [] := by
  rintro rfl
  cases hinnermost

section Writes

variable {own : FrameId}

/-- While a frame is the innermost one, its content changes by what is bound in
it, and by nothing else. -/
structure Machine.Wrote (own : FrameId)
    (before after : Machine (Watched World)) : Prop where
  noted : NotedInside before after
  content : before.env.innermost? = some own →
    own < before.heap.frames.size →
      ∃ late, after.world.past = late ++ before.world.past ∧
        after.heap.frame own =
          (before.heap.frame own).setAll (bindings own late)

instance : Allowance (@Wrote World own) where
  tidied hwrote := Allowance.tidied hwrote.noted
  trans {first second third} hfirst hsecond := by
    refine ⟨Allowance.trans hfirst.noted hsecond.noted, fun hscope hthere => ?_⟩
    obtain ⟨late, hpast, hcontent⟩ := hfirst.content hscope hthere
    have hkept := (hfirst.noted (Chain.ne_nil_of_innermost? hscope)).kept
    obtain ⟨later, hpast', hcontent'⟩ := hsecond.content
      (hkept.restored.env ▸ hscope)
      (Nat.lt_of_lt_of_le hthere hkept.frames.size_le)
    refine ⟨later ++ late, ?_, ?_⟩
    · rw [hpast', hpast, List.append_assoc]
    · rw [hcontent', hcontent, bindings_append, Container.setAll_append]
  made machine _ hmade :=
    ⟨Allowance.made machine hmade, fun _ hthere =>
      ⟨[], rfl, hmade.frame_eq own hthere nofun⟩⟩

/-- Code with a scope of its own leaves the frame alone and binds nothing in
it. -/
instance : Confining (@Wrote World own) NotedAside where
  weaken {before after} hnoted := by
    refine ⟨Confining.weaken hnoted, fun hscope hthere => ?_⟩
    obtain ⟨hkept, late, hpast, hbindings⟩ :=
      hnoted (Chain.ne_nil_of_innermost? hscope)
    refine ⟨late, hpast, ?_⟩
    rw [hbindings own hthere nofun, hkept.frames.frame_eq own hthere nofun]
    rfl

/-- The machine after something has been bound, if there is something. -/
def Machine.binding (pair? : Option (Key × Value)) (machine : Machine World) :
    Machine World :=
  match pair? with
  | some (key, value) => (Run.bind key value machine).2
  | none => machine

/-- Code does what keeps to the relation, and then binds its value to a key, if
it ends with a value and there is a key. -/
def Run.Writes (own : FrameId) (key? : Option Key)
    (body : Run (Watched World) Value) (machine : Machine (Watched World)) :
    Prop :=
  ∃ middle, Wrote own machine middle ∧
    (body machine).2 = middle.binding ((body machine).1.boundTo? key?)

/-- Binding in the innermost frame sets a key there. -/
theorem Machine.frame_binding {machine : Machine World}
    (hscope : machine.env.innermost? = some own)
    (hthere : own < machine.heap.frames.size)
    (pair? : Option (Key × Value)) :
    (machine.binding pair?).heap.frame own =
      (machine.heap.frame own).setAll pair?.toList := by
  cases pair? with
  | none => rfl
  | some entry =>
      obtain ⟨heap, programs, number, env, calls, world⟩ := machine
      cases env with
      | nil => cases hscope
      | cons link outer =>
          obtain rfl : link.frame = own := Option.some.inj hscope
          exact heap.frame_setInFrame_self entry.1 entry.2 hthere

theorem Machine.world_binding (machine : Machine World)
    (pair? : Option (Key × Value)) :
    (machine.binding pair?).world = machine.world := by
  cases pair? <;> rfl

namespace Run

variable {key? : Option Key} {body : Run (Watched World) Value}

theorem writes_of_moves (hbody : Moves (Wrote own) body)
    (machine : Machine (Watched World)) : Writes own none body machine :=
  ⟨_, hbody machine, by rw [Outcome.boundTo?_none]; rfl⟩

theorem writes_fault (cause : Cause) (machine : Machine (Watched World)) :
    Writes own key? (fault cause) machine :=
  ⟨machine, Std.Refl.refl machine, rfl⟩

theorem writes_bind {first : Run (Watched World) α}
    {next : α → Run (Watched World) Value}
    (hfirst : Moves (Wrote own) first)
    (hnext : ∀ value machine, Writes own key? (next value) machine)
    (machine : Machine (Watched World)) :
    Writes own key? (first >>= next) machine := by
  have hwrote : Wrote own machine (first machine).2 := hfirst machine
  unfold Writes
  rw [bind_apply]
  rcases hend : first machine with ⟨outcome, after⟩
  rw [hend] at hwrote
  cases outcome with
  | ok value =>
      obtain ⟨middle, hwrote', hend⟩ := hnext value after
      exact ⟨middle, Allowance.trans hwrote hwrote', hend⟩
  | error exit => exact ⟨after, hwrote, rfl⟩
  | halted reason => exact ⟨after, hwrote, rfl⟩

theorem writes_located (span : Span) {machine : Machine (Watched World)}
    (hbody : Writes own key? body machine) :
    Writes own key? (located span body) machine := by
  obtain ⟨middle, hwrote, hend⟩ := hbody
  refine ⟨middle, hwrote, ?_⟩
  unfold located mapError
  generalize body machine = ended at hend ⊢
  obtain ⟨outcome, after⟩ := ended
  cases outcome with
  | error exit => exact hend
  | _ => exact hend

/-- What a task does depends on a row of the running program. -/
theorem writes_row {Row : Type} (row? : Program → Option Row)
    (key? : Row → Option Key) {next : Row → Run (Watched World) Value}
    (hnext : ∀ row machine, Writes own (key? row) (next row) machine)
    (machine : Machine (Watched World)) :
    Writes own
      (machine.programs[machine.program]?.bind fun program =>
        (row? program).bind key?)
      (Run.program >>= fun program => Step.found (row? program) >>= next)
      machine := by
  cases hprogram : machine.programs[machine.program]? with
  | none =>
      refine ⟨machine, Std.Refl.refl machine, ?_⟩
      simp [Run.program, bind_apply, hprogram, Step.found, Outcome.ofOption,
        Outcome.boundTo?, Machine.binding]
  | some program =>
      unfold Writes
      rw [bind_apply, program_apply hprogram]
      cases hrow : row? program with
      | none =>
          refine ⟨machine, Std.Refl.refl machine, ?_⟩
          simp [bind_apply, Step.found, Outcome.ofOption, Outcome.boundTo?,
            Machine.binding, hrow]
      | some row =>
          simp only [Option.bind_some, hrow]
          exact hnext row machine

end Run

namespace Worker

variable {worker : Worker (Watched World)}
  (hworker : worker.Keeps (Wrote own) NotedAside)

include hworker

theorem Keeps.noted : worker.Keeps NotedInside NotedAside where
  expr id := (hworker.expr id).mono fun _ _ hwrote => hwrote.noted
  stmt id := (hworker.stmt id).mono fun _ _ hwrote => hwrote.noted
  call := hworker.call

theorem writes_exprKind (span : Span) (kind : ExprKind)
    (machine : Machine (Watched World)) :
    Run.Writes own kind.binds? (worker.exprKind span kind) machine := by
  cases kind with
  | assign target value =>
      refine Run.writes_bind (hworker.expr value) (fun value machine => ?_)
        machine
      exact ⟨machine, Std.Refl.refl machine, rfl⟩
  | _ => exact Run.writes_of_moves (moves_plainExpr hworker span rfl) machine

omit hworker in
theorem writes_bound (name : String) (value : Value)
    (machine : Machine (Watched World)) :
    Run.Writes own (some (.badge name)) (bound name value) machine :=
  ⟨machine, Std.Refl.refl machine, rfl⟩

theorem writes_inherit (name parent : String) (body : Block)
    (machine : Machine (Watched World)) :
    Run.Writes own (some (.badge name)) (worker.inherit name parent body)
      machine := by
  refine Run.writes_bind (Run.moves_lookup _) (fun value machine => ?_) machine
  cases value with
  | array base =>
      have hframe := moves_ownFrame hworker.noted base body
      refine Run.writes_bind (moves_of_outer hframe) (fun frame machine => ?_)
        machine
      refine Run.writes_bind
        (Run.moves_withHeap fun heap => heap.keptBut_push frame base)
        (fun chain machine => ?_) machine
      exact writes_bound name _ machine
  | _ => exact Run.writes_fault _ machine

theorem writes_stmtKind (span : Span) (operand : Value) (kind : StmtKind)
    (machine : Machine (Watched World)) :
    Run.Writes own (kind.binds?.map Key.badge)
      (worker.stmtKind span operand kind) machine := by
  cases kind with
  | assignBlock name body => exact writes_bound name operand machine
  | funcBlock name definition =>
      refine Run.writes_bind (Run.moves_newClosure name definition)
        (fun value machine => ?_) machine
      exact writes_bound name value machine
  | inheritBlock name parent body =>
      exact writes_inherit hworker name parent body machine
  | _ =>
      exact Run.writes_of_moves
        (moves_plainStmt hworker (moves_blockWith hworker.noted) span operand
          rfl)
        machine

theorem writes_evalExpr (id : ExprId) (machine : Machine (Watched World)) :
    Run.Writes own (machine.binds? (.expr id)) (worker.evalExpr id) machine :=
  Run.writes_row (fun program => program.expr? id)
    (fun expr => expr.kind.binds?)
    (fun expr machine => Run.writes_located expr.span
      (writes_exprKind hworker expr.span expr.kind machine)) machine

theorem writes_evalStmt (id : StmtId) (machine : Machine (Watched World)) :
    Run.Writes own (machine.binds? (.stmt id)) (worker.evalStmt id) machine :=
  Run.writes_row (fun program => program.stmt? id)
    (fun stmt => stmt.kind.binds?.map Key.badge)
    (fun stmt machine => Run.writes_bind
      (moves_operand hworker (moves_blockWith hworker.noted) stmt.kind)
      (fun operand machine => Run.writes_located stmt.span
        (writes_stmtKind hworker stmt.span operand stmt.kind machine))
      machine) machine

end Worker

/-- What a task binds at its end is written down at its end. -/
theorem Machine.wrote_recorded {task : Task}
    {body : Run (Watched World) Value} {machine : Machine (Watched World)}
    (hnoted : NotedInside machine (Run.recorded task body machine).2)
    (hbody : Run.Writes own (machine.binds? task) body (machine.began task)) :
    Wrote own machine (Run.recorded task body machine).2 := by
  refine ⟨hnoted, fun hscope hthere => ?_⟩
  obtain ⟨middle, hwrote, hend⟩ := hbody
  obtain ⟨late, hpast, hcontent⟩ := hwrote.content hscope hthere
  have hkept := (hwrote.noted (Chain.ne_nil_of_innermost? hscope)).kept
  have hscope' : middle.env.innermost? = some own :=
    hkept.restored.env ▸ hscope
  have hthere' := Nat.lt_of_lt_of_le hthere hkept.frames.size_le
  rw [← middle.world_binding, ← hend] at hpast
  obtain ⟨all, hall, hbound⟩ := Run.past_recorded hpast
  refine ⟨all, hall, ?_⟩
  have hentry : (machine.mapWorld Watched.world).bound? own task
      (body (machine.began task)).1 =
        (body (machine.began task)).1.boundTo? (machine.binds? task) :=
    if_pos hscope
  -- What the task binds itself comes last, in the frame and in the notes.
  calc (Run.recorded task body machine).2.heap.frame own
    _ = (body (machine.began task)).2.heap.frame own := rfl
    _ = (middle.heap.frame own).setAll _ := by
      rw [hend, middle.frame_binding hscope' hthere']
    _ = (machine.heap.frame own).setAll (bindings own all) := by
      rw [hcontent, ← Container.setAll_append, hbound own, hentry]
      rfl

theorem watch_wrote (natives : Natives World) (own : FrameId) (depth : Nat) :
    (watch natives depth).Keeps (Wrote own) NotedAside := by
  induction depth with
  | zero => exact Worker.keeps_halt .exhausted
  | succ depth ih =>
      have hnoted := watch_noted natives (depth + 1)
      refine ⟨fun id machine => ?_, fun id machine => ?_, hnoted.call⟩
      · exact wrote_recorded (hnoted.expr id machine)
          (Worker.writes_evalExpr ih id (machine.began _))
      · exact wrote_recorded (hnoted.stmt id machine)
          (Worker.writes_evalStmt ih id (machine.began _))

end Writes

end ChainScript
