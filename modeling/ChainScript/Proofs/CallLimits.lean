import ChainScript.Proofs.NativeCalls
import ChainScript.Proofs.Termination

/-
More room for active calls changes nothing, unless a call was refused.

Two runs of one script are compared, and the second one may have more active
calls.  The first one is watched: as long as nothing in it ended for want of
room, not even something that the script recovered from, the second one does
the same.  The limit is looked at in one place, where a call begins, and a call
that is refused there leaves a trace among the moments, whatever becomes of the
fault afterwards.
-/

namespace ChainScript

open Step Run

variable {World α β : Type} {low high limit : Nat}

/-- The limit is as given, and the active calls keep to it. -/
structure CallStack.Within (limit : Nat) (stack : CallStack) : Prop where
  limit_eq : stack.limit = limit
  depth_le : stack.depth ≤ limit

theorem CallStack.Within.pop {stack : CallStack} (hin : stack.Within limit) :
    stack.pop.Within limit := by
  refine ⟨hin.limit_eq, Nat.le_trans ?_ hin.depth_le⟩
  simp [CallStack.pop, CallStack.depth]

/-- The machine with another limit on its active calls. -/
def Machine.withLimit (limit : Nat) (machine : Machine World) :
    Machine World :=
  { machine with calls := { machine.calls with limit } }

def Task.IsCall : Task → Prop
  | .call _ _ _ => True
  | _ => False

/-- The exit is a fault for want of room. -/
def Exit.noRoom (exit : Exit) : Bool :=
  match exit.reason with
  | .fault (.recursionLimit _) => true
  | _ => false

namespace Moment

/-- The active calls keep to the limit.  While there are as many as it allows,
one more does nothing at all. -/
def Within (limit : Nat) : Moment World → Prop
  | .begins _ machine => machine.calls.Within limit
  | .ends task before _ after => after.calls.Within limit ∧
      (task.IsCall → limit ≤ before.calls.depth → after = before)
  | .served _ _ => True

/-- Something ends in a fault for want of room. -/
def lacksRoom : Moment World → Bool
  | .ends _ _ (.error exit) _ => exit.noRoom
  | _ => false

end Moment

/-- Nothing that has been written down ended for want of room. -/
def Watched.HasRoom (watched : Watched World) : Prop :=
  ∀ moment ∈ watched.past, moment.lacksRoom = false

instance (watched : Watched World) : Decidable watched.HasRoom :=
  inferInstanceAs (Decidable (∀ moment ∈ watched.past, _))

instance {ε : Type} (outcome : Outcome ε α) : Decidable outcome.Answered :=
  match outcome with
  | .ok _ => isTrue trivial
  | .error _ => isTrue trivial
  | .halted _ => isFalse id

namespace Machine

/-- The active calls keep to the limit, and have kept to it. -/
structure Within (limit : Nat) (machine : Machine (Watched World)) : Prop where
  calls : machine.calls.Within limit
  past : ∀ moment ∈ machine.world.past, moment.Within limit

/-- The machine that is not watched and has another limit. -/
def roomier (limit : Nat) (machine : Machine (Watched World)) :
    Machine World :=
  (machine.mapWorld Watched.world).withLimit limit

end Machine

theorem Watched.HasRoom.of_note {watched : Watched World}
    {moment : Moment World} (hroom : (watched.note moment).HasRoom) :
    watched.HasRoom :=
  fun other hother => hroom other (List.mem_cons_of_mem _ hother)

namespace Run

/-- From a watched machine, the first computation keeps to the low limit.  If
there has been room for all calls when it ends, then there was before, and the
second computation ends in the same way with the high limit. -/
structure OutlastsAt (low high : Nat) (first : Run (Watched World) α)
    (second : Run World α) (machine : Machine (Watched World)) : Prop where
  within : (first machine).2.Within low
  room : (first machine).2.world.HasRoom → machine.world.HasRoom
  same : (first machine).2.world.HasRoom → second (machine.roomier high) =
    ((first machine).1, (first machine).2.roomier high)

def Outlasts (low high : Nat) (first : Run (Watched World) α)
    (second : Run World α) : Prop :=
  ∀ machine, machine.Within low → OutlastsAt low high first second machine

variable {first : Run (Watched World) α} {second : Run World α}

/-- Only what happens from the two machines matters. -/
theorem OutlastsAt.congr {machine : Machine (Watched World)}
    {first' : Run (Watched World) α} {second' : Run World α}
    (hsame : OutlastsAt low high first second machine)
    (hfirst : first' machine = first machine)
    (hsecond : second' (machine.roomier high) =
      second (machine.roomier high)) :
    OutlastsAt low high first' second' machine := by
  obtain ⟨hend, hroom, heq⟩ := hsame
  rw [← hfirst] at hend hroom heq
  exact ⟨hend, hroom, fun hquiet => hsecond.trans (heq hquiet)⟩

theorem outlasts_ofOutcome (outcome : Outcome Exit α) :
    Outlasts low high (Step.ofOutcome outcome : Run (Watched World) α)
      (Step.ofOutcome outcome) :=
  fun _ hin => ⟨hin, id, fun _ => rfl⟩

theorem outlasts_onScene (work : Scene → α × Scene) :
    Outlasts low high (onScene work : Run (Watched World) α)
      (onScene work) :=
  fun _ hin => ⟨⟨hin.calls, hin.past⟩, id, fun _ => rfl⟩

theorem Outlasts.bind (hbody : Outlasts low high first second)
    {next : α → Run (Watched World) β} {next' : α → Run World β}
    (hnext : ∀ value, Outlasts low high (next value) (next' value)) :
    Outlasts low high (first >>= next) (second >>= next') := by
  intro machine hin
  obtain ⟨hin', hroom, hsame⟩ := hbody machine hin
  cases hfirst : first machine with
  | mk outcome after =>
      rw [hfirst] at hin' hroom hsame
      cases outcome with
      | ok value =>
          obtain ⟨hend, hroom', hsame'⟩ := hnext value after hin'
          have hbind : (first >>= next) machine = next value after := by
            rw [bind_apply, hfirst]
          refine ⟨by rwa [hbind], ?_, ?_⟩ <;> rw [hbind]
          · exact fun hquiet => hroom (hroom' hquiet)
          · intro hquiet
            rw [bind_apply, hsame (hroom' hquiet)]
            exact hsame' hquiet
      | error exit =>
          have hbind : (first >>= next) machine = (.error exit, after) := by
            rw [bind_apply, hfirst]
          refine ⟨by rwa [hbind], by rwa [hbind], fun hquiet => ?_⟩
          rw [hbind] at hquiet ⊢
          rw [bind_apply, hsame hquiet]
      | halted reason =>
          have hbind : (first >>= next) machine = (.halted reason, after) := by
            rw [bind_apply, hfirst]
          refine ⟨by rwa [hbind], by rwa [hbind], fun hquiet => ?_⟩
          rw [hbind] at hquiet ⊢
          rw [bind_apply, hsame hquiet]

theorem Outlasts.mapOutcome {f : Outcome Exit α → Outcome Exit β}
    (hbody : Outlasts low high first second) :
    Outlasts low high (first.mapOutcome f) (second.mapOutcome f) := by
  intro machine hin
  obtain ⟨hin', hroom, hsame⟩ := hbody machine hin
  refine ⟨hin', hroom, fun hquiet => ?_⟩
  unfold Run.mapOutcome
  rw [hsame hquiet]

theorem Outlasts.between (enter leave : Scene → Scene)
    (hbody : Outlasts low high first second) :
    Outlasts low high (first.between enter leave)
      (second.between enter leave) := by
  intro machine hin
  obtain ⟨hin', hroom, hsame⟩ :=
    hbody (machine.withScene (enter machine.scene)) ⟨hin.calls, hin.past⟩
  refine ⟨⟨hin'.calls, hin'.past⟩, hroom, fun hquiet => ?_⟩
  have hbare : second ((machine.roomier high).withScene
      (enter (machine.roomier high).scene)) = _ := hsame hquiet
  simp only [Run.between, hbare]
  rfl

/-- Outlasting is a comparison. -/
def outlasting (World : Type) (low high : Nat) :
    Comparison (Watched World) World :=
  .ofExact (Outlasts low high) outlasts_ofOutcome outlasts_onScene
    (fun hbody hnext => hbody.bind hnext) (fun _ hbody => hbody.mapOutcome)
    Outlasts.between

theorem Outlasts.noting (hbody : Outlasts low high first second) :
    Outlasts low high (noting first) (noting second) := by
  intro machine hin
  obtain ⟨hin', hroom, hsame⟩ := hbody machine hin
  rw [← snd_noting first machine] at hin' hroom
  refine ⟨hin', hroom, fun hquiet => ?_⟩
  rw [snd_noting] at hquiet
  unfold Run.noting
  rw [hsame hquiet]
  rcases first machine with ⟨outcome, after⟩
  cases outcome <;> rfl

/-- Where the low limit leaves room for a call, so does the high one. -/
theorem Outlasts.inCall {machine : Machine (Watched World)} (hle : low ≤ high)
    (hbody : Outlasts low high first second) (hin : machine.Within low)
    (hroom : machine.calls.depth < low) (call : ActiveCall) :
    OutlastsAt low high (inCall call first) (inCall call second) machine := by
  have hlimit := hin.calls.limit_eq
  have hpush := CallStack.push_of_lt call (hlimit.symm ▸ hroom)
  have hpush' : (machine.roomier high).calls.push call = _ :=
    CallStack.push_of_lt call (Nat.lt_of_lt_of_le hroom hle)
  let started : Machine (Watched World) :=
    { machine with
      calls := { machine.calls with calls := machine.calls.calls.push call } }
  have hstarted : started.calls.Within low := by
    refine ⟨hlimit, ?_⟩
    simpa [started, CallStack.depth, Nat.succ_le_iff] using hroom
  obtain ⟨⟨hcalls, hpast⟩, hquiet, hsame⟩ :=
    hbody.noting started ⟨hstarted, hin.past⟩
  refine ⟨?_, ?_, ?_⟩ <;> rw [inCall_of_ok hpush]
  · exact ⟨hcalls.pop, hpast⟩
  · exact hquiet
  · intro hend
    rw [inCall_of_ok hpush']
    have hstep : Run.noting second (started.roomier high) = _ := hsame hend
    simp only [Machine.roomier, Machine.mapWorld, Machine.withLimit, started]
      at hstep ⊢
    rw [hstep]
    rfl

/-- The host is not told of the limit. -/
theorem outlasts_askHost (natives : Natives World) (name : String)
    (args : Container Value) :
    Outlasts low high (askHost natives.watched name args)
      (askHost natives name args) := by
  intro machine hin
  let reply := natives.reply name args machine.heap machine.world.world
  let other := machine.roomier high
  have hheap : machine.heap = other.heap := rfl
  let put (world : World) : Watched World := { machine.world with world }
  have hasked : askHost natives.watched name args machine = _ :=
    carryOut_map put reply hheap
  refine ⟨?_, ?_, ?_⟩ <;> rw [hasked]
  · exact ⟨hin.calls, hin.past⟩
  · exact id
  · intro hquiet
    exact Prod.ext rfl (snd_carryOut reply other)

end Run

namespace Machine

theorem Within.began {machine : Machine (Watched World)}
    (hin : machine.Within low) (task : Task) : (machine.began task).Within low :=
  ⟨hin.calls, List.forall_mem_cons.mpr ⟨hin.calls, hin.past⟩⟩

end Machine

namespace Run

variable {task : Task} {body : Run (Watched World) Value}
  {machine : Machine (Watched World)}

theorem within_recorded (hend : (body (machine.began task)).2.Within low)
    (hfull : task.IsCall → low ≤ machine.calls.depth →
      (body (machine.began task)).2 = machine.began task) :
    (recorded task body machine).2.Within low := by
  refine ⟨hend.calls, List.forall_mem_cons.mpr ⟨⟨hend.calls, ?_⟩, hend.past⟩⟩
  intro htask hno
  change (body (machine.began task)).2.mapWorld Watched.world =
    (machine.began task).mapWorld Watched.world
  rw [hfull htask hno]

/-- What is recorded outlasts if the body does, once its beginning is written
down. -/
theorem OutlastsAt.recorded {second : Run World Value}
    (hbody : OutlastsAt low high body second (machine.began task))
    (hfull : task.IsCall → low ≤ machine.calls.depth →
      (body (machine.began task)).2 = machine.began task) :
    OutlastsAt low high (recorded task body) second machine where
  within := within_recorded hbody.within hfull
  room hquiet := (hbody.room hquiet.of_note).of_note
  same hquiet := hbody.same hquiet.of_note

/-- After a refusal there is nothing to compare. -/
theorem outlastsAt_recorded_of_noRoom {second : Run World Value} {exit : Exit}
    (hin : machine.Within low)
    (hend : body (machine.began task) = (.error exit, machine.began task))
    (hexit : exit.noRoom = true) :
    OutlastsAt low high (recorded task body) second machine := by
  have hlacks : ¬ (recorded task body machine).2.world.HasRoom := by
    intro hquiet
    have hended := hquiet _ List.mem_cons_self
    change Moment.lacksRoom (.ends _ _ (body (machine.began task)).1 _) = _
      at hended
    rw [hend] at hended
    exact Bool.false_ne_true (hended.symm.trans hexit)
  refine ⟨within_recorded ?_ fun _ _ => ?_, fun hquiet => absurd hquiet hlacks,
    fun hquiet => absurd hquiet hlacks⟩ <;> rw [hend]
  exact hin.began task

end Run

namespace Worker

/-- Run the code of a function, when there is room for a call of it. -/
def entered (natives : Natives World) (worker : Worker World)
    (function : Function) (args : Container Value) : Run World Value :=
  let args := function.bound.expand args.entries
  match function.body with
  | .native => askHost natives function.name args
  | .script number definition captured =>
      worker.callScript function.name number definition captured args

section Entering

variable (natives : Natives World) (worker : Worker World) {id : FunctionId}
  (args : Container Value) (site : Option Span) {machine : Machine World}

theorem evalCall_of_none (hnone : machine.heap.function? id = none) :
    worker.evalCall natives id args site machine =
      (.halted .dangling, machine) := by
  simp [evalCall, bind_apply, readHeap, hnone, found, Outcome.ofOption]

theorem evalCall_of_some {function : Function}
    (hfunction : machine.heap.function? id = some function) :
    worker.evalCall natives id args site machine =
      inCall ⟨function.name, site⟩ (worker.entered natives function args)
        machine := by
  simp only [evalCall, bind_apply, readHeap, read_apply, hfunction]
  rfl

end Entering

variable {natives : Natives World} {worker : Worker (Watched World)}
  {worker' : Worker World}

theorem outlasts_entered
    (hworkers : (outlasting World low high).Workers worker worker')
    (function : Function) (args : Container Value) :
    Outlasts low high (worker.entered natives.watched function args)
      (worker'.entered natives function args) := by
  unfold entered
  cases function.body with
  | native => exact outlasts_askHost natives function.name _
  | script number definition captured =>
      exact hworkers.callScript function.name number definition captured _

/-- A call either finds room with both limits, or it is refused with the low
one, and that is written down. -/
theorem outlasts_call (hle : low ≤ high)
    (hworkers : (outlasting World low high).Workers worker worker')
    (id : FunctionId) (args : Container Value) (site : Option Span) :
    Outlasts low high
      (recorded (.call id args site)
        (worker.evalCall natives.watched id args site))
      (worker'.evalCall natives id args site) := by
  intro machine hin
  let began := machine.began (.call id args site)
  have hbegan : began.Within low := hin.began _
  cases hfunction : began.heap.function? id with
  | none =>
      have hfirst := evalCall_of_none natives.watched worker args site hfunction
      have hsecond : worker'.evalCall natives id args site
          (began.roomier high) = _ :=
        evalCall_of_none natives worker' args site hfunction
      have hnone : OutlastsAt low high _ _ began :=
        outlasts_ofOutcome (.halted .dangling : Outcome Exit Value) began hbegan
      exact OutlastsAt.recorded (hnone.congr hfirst hsecond) fun _ _ =>
        congrArg Prod.snd hfirst
  | some function =>
      have hfirst := evalCall_of_some natives.watched worker args site hfunction
      by_cases hroom : machine.calls.depth < low
      · have hsecond : worker'.evalCall natives id args site
            (began.roomier high) = _ :=
          evalCall_of_some natives worker' args site hfunction
        have hcode : Outlasts low high (worker.entered natives.watched _ _) _ :=
          outlasts_entered hworkers function args
        have hcall := hcode.inCall hle hbegan hroom ⟨function.name, site⟩
        exact OutlastsAt.recorded (hcall.congr hfirst hsecond)
          fun _ hno => absurd hroom (Nat.not_lt.mpr hno)
      · have hfull : began.calls.limit ≤ began.calls.depth :=
          hbegan.calls.limit_eq ▸ Nat.not_lt.mp hroom
        rw [inCall_of_error (CallStack.push_of_le _ hfull)] at hfirst
        exact outlastsAt_recorded_of_noRoom hin hfirst rfl

end Worker

/-- Evaluation that is watched, and evaluation with more room. -/
theorem watch_outlasts (natives : Natives World) (hle : low ≤ high)
    (depth : Nat) :
    (outlasting World low high).Workers (watch natives depth)
      (evaluate natives depth) := by
  induction depth with
  | zero => exact fun _ => outlasts_ofOutcome (.halted .exhausted)
  | succ depth ih =>
      intro task
      cases task with
      | expr id =>
          intro machine hin
          have hexpr := ih.evalExpr id (machine.began (.expr id))
            (hin.began _)
          exact OutlastsAt.recorded hexpr fun hcall => hcall.elim
      | stmt id =>
          intro machine hin
          have hstmt := ih.evalStmt id (machine.began (.stmt id))
            (hin.began _)
          exact OutlastsAt.recorded hstmt fun hcall => hcall.elim
      | call id args site => exact Worker.outlasts_call hle ih id args site

/-- A watched run of a script keeps to the low limit.  If there was room for
all of its calls and it came to an end, the run with the high limit ends in the
same way. -/
theorem script_outlasts (natives : Natives World) (hle : low ≤ high)
    (script : Script) {machine : Machine (Watched World)}
    (hin : machine.Within low) :
    let first := Worker.script (watch natives) script machine
    first.2.Within low ∧
      (first.2.world.HasRoom → first.1.Answered →
        runScript natives script (machine.roomier high) =
          (first.1, first.2.roomier high)) := by
  intro first
  have hworkers := watch_outlasts natives hle machine.depthBound
  have hstmts : Outlasts low high _ _ :=
    (outlasting World low high).catchReturn (hworkers.stmts script.body)
  obtain ⟨hend, _, hsame⟩ := hstmts machine hin
  refine ⟨hend, fun hroom hanswered => ?_⟩
  have hfirst := hsame hroom
  -- More room for calls makes for more depth, which is not needed.
  have hdepth : machine.depthBound ≤ (machine.roomier high).depthBound := by
    apply Nat.mul_le_mul_right
    exact Nat.add_le_add_right (hin.calls.limit_eq ▸ hle) 2
  have hdeeper : Agrees (fun world => world) (· = .exhausted) _ _ :=
    (agreement _ _).catchReturn (Comparison.Workers.stmts
      (evaluate_agree_of_le natives hdepth) script.body)
  rw [runScript, Worker.script_apply, hdeeper.eq_of_answered, hfirst]
  · rfl
  · rw [hfirst]
    exact hanswered

/-- The limit on active calls is kept to, and a higher one makes a difference
only to a run in which a call was refused.  When nothing in the run of a parsed
script ends for want of room, and the run comes to an end, it ends in the same
way with any higher limit: with the same value or fault, the same calls of the
host's functions in the same order, and the same heap.  In a fair session it
does come to an end. -/
theorem call_limit_monotone {natives : Natives World} {world : World}
    {requests : List Request} {tokens : List Token} {parsed : ParsedScript}
    (hparse : parse ((Session.start world).serveAll (evaluate natives)
      requests).programs.size tokens = .ok parsed)
    (globals : List (String × Value)) (hle : low ≤ high) :
    let session := (Session.start world).serveAll (evaluate natives) requests
    let machine (limit : Nat) : Machine (Watched (Logged World)) :=
      .start session.heap (session.programs.push parsed.program)
        session.programs.size (globalFrame globals) limit
        ⟨⟨session.world, []⟩, []⟩
    let run (limit : Nat) :=
      Worker.script (watch natives.logged) parsed.script (machine limit)
    (∀ limit, runScript natives parsed.script
        ((machine limit).mapWorld Watched.plain) =
          ((run limit).1, (run limit).2.mapWorld Watched.plain)) ∧
      (∀ moment ∈ (run low).2.world.past, moment.Within low) ∧
      ((run low).2.world.HasRoom → (run low).1.Answered →
        (run high).1 = (run low).1 ∧
          (run high).2.world.world = (run low).2.world.world ∧
          (run high).2.heap = (run low).2.heap) ∧
      (∀ known : World → Value → Prop,
        FairSession known natives world requests →
          session.Fair known (.build tokens globals low) →
            (run low).1.Answered) := by
  intro session machine run
  have hin : (machine low).Within low :=
    ⟨⟨rfl, Nat.zero_le _⟩, fun _ hmoment => absurd hmoment List.not_mem_nil⟩
  have hplain : ∀ limit, runScript natives parsed.script
      ((machine limit).mapWorld Watched.plain) =
        ((run limit).1, (run limit).2.mapWorld Watched.plain) :=
    fun limit => script_mapWorld_plain natives parsed.script (machine limit)
  obtain ⟨hwithin, hmore⟩ :=
    script_outlasts natives.logged hle parsed.script hin
  refine ⟨hplain, hwithin.past, fun hroom hanswered => ?_,
    fun known hfair hbuild => ?_⟩
  · have hrun := (Worker.agrees_script (watch_agree natives.logged)
      parsed.script).shown (machine high)
    have hhigh : _ = ((run low).1, (run low).2.roomier high) :=
      hrun.symm.trans (hmore hroom hanswered)
    have hmachine := congrArg Prod.snd hhigh
    have hworld := congrArg Machine.world hmachine
    have hheap := congrArg Machine.heap hmachine
    have houtcome := congrArg Prod.fst hhigh
    exact ⟨houtcome, hworld, hheap⟩
  · obtain ⟨store, hat⟩ := Session.at_history hfair
    have hsession := Session.history_mapWorld natives world requests
    change _ = session at hsession
    have hends : (runScript natives parsed.script
        ((machine low).mapWorld Watched.plain)).1.Answered := by
      change parse session.programs.size tokens = _ at hparse
      change (runScript natives parsed.script
        (.start session.heap (session.programs.push parsed.program)
          session.programs.size (globalFrame globals) low
          session.world)).1.Answered
      rw [← hsession] at hparse hbuild ⊢
      exact (hat.terminates_parsed hfair.replies hparse hbuild).answered
    rwa [hplain low] at hends

/-- The tokens of `f = func(x) { keep(x) }; f(1)`. -/
def keepingOnce : List Token :=
  [.ident "f", .mark .assign, .keyword .funcKw, .mark .openParen, .ident "x",
    .mark .closeParen, .mark .openBrace, .ident "keep", .mark .openParen,
    .ident "x", .mark .closeParen, .mark .closeBrace, .mark .semicolon,
    .ident "f", .mark .openParen, .int 1, .mark .closeParen, .eof].map
      fun kind => ⟨kind, .origin⟩

/-- A session that has a function of the host for it. -/
def keepingSession : Session (List Value) :=
  (Session.start []).serveAll (evaluate keepingHost) [.use 0 (.native "keep")]

/-- A watched run of a script of this session. -/
def keepingRun (parsed : ParsedScript) (limit : Nat) :
    Outcome Exit Value × Machine (Watched (Logged (List Value))) :=
  Worker.script (watch keepingHost.logged) parsed.script
    (.start keepingSession.heap (keepingSession.programs.push parsed.program)
      keepingSession.programs.size (globalFrame [("keep", .function 0)]) limit
      ⟨⟨keepingSession.world, []⟩, []⟩)

theorem parse_keepingOnce :
    ∃ parsed, parse keepingSession.programs.size keepingOnce = .ok parsed ∧
      (keepingRun parsed 2).2.world.HasRoom ∧
      (keepingRun parsed 2).1.Answered ∧
      (keepingRun parsed 2).2.world.world.calls.map NativeCall.name =
        ["keep"] := by
  have hok : (parse keepingSession.programs.size keepingOnce).map
      (fun parsed => decide ((keepingRun parsed 2).2.world.HasRoom ∧
        (keepingRun parsed 2).1.Answered ∧
        (keepingRun parsed 2).2.world.world.calls.map NativeCall.name =
          ["keep"])) = .ok true := by
    decide +kernel
  cases hparse : parse keepingSession.programs.size keepingOnce with
  | ok parsed =>
      rw [hparse] at hok
      exact ⟨parsed, rfl, of_decide_eq_true (Outcome.ok.inj hok)⟩
  | _ =>
      rw [hparse] at hok
      cases hok

/-- Two calls are active at once in this run, and the host is asked once; with
more room it is asked the same. -/
theorem call_limit_monotone_keepingOnce :
    ∃ parsed, parse keepingSession.programs.size keepingOnce = .ok parsed ∧
      (keepingRun parsed 2).2.world.world.calls.map NativeCall.name =
        ["keep"] ∧
      (keepingRun parsed 9).1 = (keepingRun parsed 2).1 ∧
      (keepingRun parsed 9).2.world.world =
        (keepingRun parsed 2).2.world.world := by
  obtain ⟨parsed, hparse, hroom, hanswered, hcalls⟩ := parse_keepingOnce
  have hmonotone := call_limit_monotone hparse [("keep", .function 0)]
    (show 2 ≤ 9 by decide)
  obtain ⟨houtcome, hworld, _⟩ := hmonotone.2.2.1 hroom hanswered
  exact ⟨parsed, hparse, hcalls, houtcome, hworld⟩

end ChainScript
