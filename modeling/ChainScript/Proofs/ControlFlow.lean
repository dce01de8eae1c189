import ChainScript.Proofs.OrderlySessions
import ChainScript.Proofs.Termination

/-
Control flow never escapes.

The parser accepts `break` and `continue` only where there is a loop around them
in the same function, and each of them ends in the nearest loop.  A `return`
ends where its function's body does, or its script.  So a function that is
called from another script's loop cannot leave that loop, and nobody outside of
a script ever sees a signal.
-/

namespace ChainScript

open Run

variable {World : Type}

/-- The computation is left by a signal. -/
def Outcome.Signals {α : Type} (outcome : Outcome Exit α) : Prop :=
  ∃ exit, outcome = .error exit ∧ exit.reason.isSignal = true

/-- The computation ended in a value or a fault. -/
def Outcome.ValueOrFault {α : Type} (outcome : Outcome Exit α) : Prop :=
  outcome.Answered ∧ ¬ outcome.Signals

/-- The task calls a function, or evaluates an expression. -/
def Task.IsInner : Task → Prop
  | .stmt _ => False
  | _ => True

/-- No function of the host answers with a signal. -/
def Natives.NeverSignal (natives : Natives World) : Prop :=
  ∀ name args machine, ¬ (askHost natives name args machine).1.Signals

theorem Outcome.within_none_iff {outcome : Outcome Exit Value} :
    (outcome.Within (fun _ => False) fun _ => True) ↔ ¬ outcome.Signals := by
  constructor
  · rintro hwithin ⟨exit, rfl, hsignal⟩
    cases hreason : exit.reason with
    | fault cause => simp [hreason, Reason.isSignal] at hsignal
    | signal way => exact hwithin way hreason
  · intro hnone
    cases outcome with
    | ok value => trivial
    | halted reason => trivial
    | error exit =>
        intro way hreason
        refine hnone ⟨exit, rfl, ?_⟩
        rw [hreason]
        rfl

theorem Natives.NeverSignal.answerWithin {natives : Natives World}
    (hnatives : natives.NeverSignal) : natives.AnswerWithin fun _ => False :=
  fun name args machine =>
    Outcome.within_none_iff.mpr (hnatives name args machine)

namespace Session

/-- No use of an interpreter is left by a signal. -/
theorem use_never_signals {natives : Natives World}
    (hnatives : natives.NeverSignal) (world : World) (requests : List Request)
    {runner : Runner}
    (hrunner : runner ∈ ((start world).serveAll (evaluate natives)
      requests).runners) (use : Use) :
    ¬ (use.body (evaluate natives) runner.script
      (((start world).serveAll (evaluate natives) requests).machine
        runner)).1.Signals := by
  rw [← history_mapWorld natives world requests] at hrunner ⊢
  have horderly := orderly_history hnatives.answerWithin world requests
  obtain ⟨_, hwithin⟩ := horderly.use hnatives.answerWithin hrunner use
  -- What has been written down makes no difference to how the use ends.
  have hagree := Use.agrees_body (watch_agree natives) runner.script use
    ((history natives world requests).machine runner)
  rcases hagree with ⟨_, hloose, _⟩ | hend
  · exact hloose.elim
  · change ¬ (use.body (evaluate natives) runner.script
      (((history natives world requests).machine runner).mapWorld
        Watched.world)).1.Signals
    rw [hend]
    exact Outcome.within_none_iff.mp hwithin

end Session

/-- If no function of the host answers with a signal, no signal leaves a call or
an expression in the course of a session, and none leaves a script or a call
from outside.  Where the host makes up no values, all of these end in a value or
a fault. -/
theorem control_flow_never_escapes {natives : Natives World}
    (hnatives : natives.NeverSignal) (world : World)
    (requests : List Request) :
    let session := (Session.start world).serveAll (evaluate natives) requests
    let history := Session.history natives world requests
    history.mapWorld Watched.world = session ∧
    (∀ task before outcome after, task.IsInner →
      .ends task before outcome after ∈ history.world.past →
      ¬ outcome.Signals) ∧
    (∀ runner ∈ session.runners, ∀ use : Use,
      ¬ (use.body (evaluate natives) runner.script
        (session.machine runner)).1.Signals) ∧
    ∀ known, FairSession known natives world requests →
      (∀ task before outcome after, task.IsInner →
        .ends task before outcome after ∈ history.world.past →
        outcome.ValueOrFault) ∧
      ∀ number runner use, session.runners[number]? = some runner →
        session.Fair known (.use number use) →
        (use.body (evaluate natives) runner.script
          (session.machine runner)).1.ValueOrFault := by
  intro session history
  have horderly := Session.orderly_history hnatives.answerWithin world requests
  have hinner : ∀ task before outcome after, task.IsInner →
      .ends task before outcome after ∈ history.world.past →
      ¬ outcome.Signals := by
    intro task before outcome after htask hmoment
    have hends := (horderly.world _ hmoment).2
    apply Outcome.within_none_iff.mp
    cases task with
    | stmt id => exact htask.elim
    | expr id => exact hends
    | call function args site => exact hends
  have huses : ∀ runner ∈ session.runners, ∀ use : Use,
      ¬ (use.body (evaluate natives) runner.script
        (session.machine runner)).1.Signals :=
    fun runner hrunner use =>
      Session.use_never_signals hnatives world requests hrunner use
  refine ⟨Session.history_mapWorld natives world requests, hinner, huses,
    fun known hfair => ⟨?_, ?_⟩⟩
  · intro task before outcome after htask hmoment
    obtain ⟨store, hat⟩ := Session.at_history hfair
    exact ⟨hat.world.answered _ hmoment,
      hinner task before outcome after htask hmoment⟩
  · intro number runner use hrunner huse
    exact ⟨Session.answered_use hfair hrunner huse,
      huses runner (List.mem_of_getElem? hrunner) use⟩

theorem keepingHost_neverSignal : keepingHost.NeverSignal := by
  rintro name args machine ⟨exit, hexit, _⟩
  cases hexit

/-- The tokens of
`f = func(a) { for x in a { return x } }; for y in [1] { f([y]); break };
return f([2])`. -/
def leaving : List Token :=
  [.ident "f", .mark .assign, .keyword .funcKw, .mark .openParen, .ident "a",
    .mark .closeParen, .mark .openBrace, .keyword .forKw, .ident "x",
    .keyword .inKw, .ident "a", .mark .openBrace, .keyword .returnKw,
    .ident "x", .mark .closeBrace, .mark .closeBrace, .mark .semicolon,
    .keyword .forKw, .ident "y", .keyword .inKw, .mark .openBracket, .int 1,
    .mark .closeBracket, .mark .openBrace, .ident "f", .mark .openParen,
    .mark .openBracket, .ident "y", .mark .closeBracket, .mark .closeParen,
    .mark .semicolon, .keyword .breakKw, .mark .closeBrace, .mark .semicolon,
    .keyword .returnKw, .ident "f", .mark .openParen, .mark .openBracket,
    .int 2, .mark .closeBracket, .mark .closeParen, .eof].map
      fun kind => ⟨kind, .origin⟩

/-- A session that runs a script which is left by a signal of its own. -/
def leavingOnce : List Request :=
  [.build leaving [] 3, .use 1 .run]

theorem fairSession_leavingOnce :
    FairSession (fun kept value => value ∈ kept) keepingHost [] leavingOnce where
  replies := keepingHost_fair
  begins := fun _ hvalue => absurd hvalue List.not_mem_nil
  asks := ⟨fun _ hglobal => absurd hglobal List.not_mem_nil, trivial, trivial⟩

theorem control_flow_never_escapes_leavingOnce :
    keepingHost.NeverSignal ∧
      FairSession (fun kept value => value ∈ kept) keepingHost [] leavingOnce ∧
      ∀ task before outcome after, task.IsInner →
        .ends task before outcome after ∈
          (Session.history keepingHost [] leavingOnce).world.past →
        outcome.ValueOrFault := by
  refine ⟨keepingHost_neverSignal, fairSession_leavingOnce, ?_⟩
  obtain ⟨_, _, _, hends⟩ :=
    control_flow_never_escapes keepingHost_neverSignal [] leavingOnce
  exact (hends _ fairSession_leavingOnce).1

example :
    ((Session.start ([] : List Value)).serveAll (evaluate keepingHost)
      leavingOnce).answers = [.int 2] := by
  decide +kernel

end ChainScript
