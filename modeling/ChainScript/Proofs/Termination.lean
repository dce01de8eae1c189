import ChainScript.Proofs.SoundSessions

/-
Every script terminates.

The depth that evaluation is given at the start is never used up, and so a
larger one makes no difference: what a run ends in is what the unbounded
recursion ends in.  Faults that a script catches make no exception, since the
active calls that are left are the same after a call as before it.
-/

namespace ChainScript

open Step Run

variable {World : Type}

/-- A run that asks for evaluation of some depth ends in a value or an early
exit, and ends in the same way with any depth from the bound on. -/
structure Run.Terminates (natives : Natives World)
    (run : (Nat → Worker World) → Run World Value) (machine : Machine World) :
    Prop where
  answered : (run (evaluate natives) machine).1.Answered
  depth_eq : ∀ depth, machine.depthBound ≤ depth →
    run (fun _ => evaluate natives depth) machine =
      run (evaluate natives) machine

section Depth

variable {natives : Natives World} {machine : Machine World} {depth : Nat}

/-- A run that agrees with one that ends in an answer ends in the same way. -/
theorem Run.Agrees.eq_of_answered {α : Type} {first second : Run World α}
    (hagree : Agrees (fun world => world) (· = .exhausted) first second)
    (hanswered : (first machine).1.Answered) :
    second machine = first machine := by
  rcases hagree machine with ⟨reason, _, hend⟩ | hend
  · rw [hend] at hanswered
    exact hanswered.elim
  · exact hend

theorem Worker.script_apply (workers : Nat → Worker World) (script : Script)
    (machine : Machine World) :
    Worker.script workers script machine =
      catchReturn ((workers machine.depthBound).stmts script.body) machine :=
  rfl

theorem Worker.value_apply (workers : Nat → Worker World) (id : FunctionId)
    (args : Container Value) (machine : Machine World) :
    Worker.value workers (.function id) args machine =
      workers machine.depthBound (.call id args none) machine :=
  rfl

theorem Use.body_eq_of_le {script : Script} {use : Use}
    (hle : machine.depthBound ≤ depth)
    (hanswered : (use.body (evaluate natives) script machine).1.Answered) :
    use.body (fun _ => evaluate natives depth) script machine =
      use.body (evaluate natives) script machine := by
  have hagree := evaluate_agree_of_le natives hle
  cases use with
  | run =>
      simp only [Use.body, Worker.script_apply] at hanswered ⊢
      have hscript : Agrees (fun world => world) (· = .exhausted) _ _ :=
        (agreement _ _).catchReturn
          (Comparison.Workers.stmts hagree script.body)
      exact hscript.eq_of_answered hanswered
  | call callee args =>
      cases callee with
      | function id =>
          simp only [Use.body, Worker.value_apply] at hanswered ⊢
          exact Run.Agrees.eq_of_answered (hagree _) hanswered
      | _ => rfl
  | _ => rfl

end Depth

variable {known : World → Value → Prop} {natives : Natives World}

namespace Session

/-- What interpreters of a sound session do terminates. -/
theorem At.terminates (hnatives : natives.Fair known)
    {session : Session (Watched World)} {store : Store}
    (hat : session.At (Custody.watched .empty known) store) {runner : Runner}
    (hrunner : runner ∈ session.runners) {use : Use}
    (huse : use.Fair session.heap fun value =>
      value ∈ session.answers ∨ known session.world.world value) :
    Terminates natives (fun workers => use.body workers runner.script)
      ((session.mapWorld Watched.world).machine runner) := by
  rw [hat.heap_eq] at huse
  obtain ⟨henv, program, hprogram, hscript⟩ := hat.runners runner hrunner
  obtain ⟨after, _, _, hsafe⟩ :=
    Use.safe_body (watch_safeTo Store.honours_empty hnatives) hat.programs
      hprogram henv hscript hat.sound
      (Store.honours_empty.extends hat.world.begun) hat.holds_given huse _ store
      (.refl store) (hat.machine_at runner)
  -- What has been written down makes no difference to how the use ends.
  have hagree := Use.agrees_body (watch_agree natives) runner.script use
    (session.machine runner)
  have hanswered : (use.body (evaluate natives) runner.script
      ((session.mapWorld Watched.world).machine runner)).1.Answered := by
    rcases hagree with ⟨_, hloose, _⟩ | hend
    · exact hloose.elim
    · change (use.body (evaluate natives) runner.script
        ((session.machine runner).mapWorld Watched.world)).1.Answered
      rw [hend]
      exact Outcome.Safe.answered hsafe
  exact ⟨hanswered, fun depth hdepth => Use.body_eq_of_le hdepth hanswered⟩

/-- The uses of an interpreter of a fair session end in a value or an early
exit. -/
theorem answered_use {world : World} {requests : List Request}
    (hfair : FairSession known natives world requests) {number : Nat}
    {runner : Runner} {use : Use}
    (hrunner : ((start world).serveAll (evaluate natives)
      requests).runners[number]? = some runner)
    (huse : ((start world).serveAll (evaluate natives) requests).Fair known
      (.use number use)) :
    (use.body (evaluate natives) runner.script
      (((start world).serveAll (evaluate natives) requests).machine
        runner)).1.Answered := by
  obtain ⟨store, hat⟩ := at_history hfair
  rw [← history_mapWorld natives world requests] at hrunner huse ⊢
  exact (hat.terminates hfair.replies (List.mem_of_getElem? hrunner)
    huse).answered

end Session

/-- A script that has just been parsed terminates. -/
theorem Session.At.terminates_parsed (hnatives : natives.Fair known)
    {session : Session (Watched World)} {store : Store}
    (hat : session.At (Custody.watched .empty known) store) {tokens : List Token}
    {parsed : ParsedScript}
    (hparse : parse session.programs.size tokens = .ok parsed)
    {globals : List (String × Value)} {limit : Nat}
    (hfair : (session.mapWorld Watched.world).Fair known
      (.build tokens globals limit)) :
    Terminates natives (fun workers => Worker.script workers parsed.script)
      (.start session.heap (session.programs.push parsed.program)
        session.programs.size (globalFrame globals) limit
        session.world.world) := by
  obtain ⟨hbuilt, hnumber, hscript⟩ := parse_built hparse
  let scope := (session.heap.pushNew (globalFrame globals) []).1
  let runner : Runner :=
    ⟨parsed.script, session.programs.size, scope, .empty limit⟩
  change ∀ global ∈ globals, session.heap.Obtainable _ global.2 at hfair
  rw [hat.heap_eq] at hfair
  have hglobals : ∀ global ∈ globals, store.Holds global.2 :=
    fun global hglobal =>
      (Store.honours_empty.extends hat.world.begun).holds hat.sound
        hat.holds_given (hfair global hglobal)
  obtain ⟨after, _, hadded⟩ := (hat.pushProgram hbuilt hnumber).addRunner
    Array.getElem?_push_size hscript hglobals limit
  have hrunner : runner ∈ session.runners ++ [runner] :=
    List.mem_append_right _ List.mem_cons_self
  exact hadded.terminates hnatives hrunner (show Use.Fair _ _ .run from trivial)

/-- Every script terminates, in every fair session and with every limit on the
active calls: a script that has just been parsed, and everything that the
interpreters of the session may be asked for, among which their own scripts and
calls from outside. -/
theorem every_script_terminates {known : World → Value → Prop}
    {natives : Natives World} {world : World} {requests : List Request}
    (hfair : FairSession known natives world requests) :
    let session := (Session.start world).serveAll (evaluate natives) requests
    (∀ tokens globals limit parsed,
      parse session.programs.size tokens = .ok parsed →
      session.Fair known (.build tokens globals limit) →
      Terminates natives (fun workers => Worker.script workers parsed.script)
        (.start session.heap (session.programs.push parsed.program)
          session.programs.size (globalFrame globals) limit session.world)) ∧
    (∀ number runner use, session.runners[number]? = some runner →
      session.Fair known (.use number use) →
      Terminates natives (fun workers => use.body workers runner.script)
        (session.machine runner)) := by
  intro session
  obtain ⟨store, hat⟩ := Session.at_history hfair
  have hsession := Session.history_mapWorld natives world requests
  change _ = session at hsession
  rw [← hsession]
  constructor
  · intro tokens globals limit parsed hparse hglobals
    exact hat.terminates_parsed hfair.replies hparse hglobals
  · intro number runner use hrunner huse
    exact hat.terminates hfair.replies (List.mem_of_getElem? hrunner) huse

/-- The tokens of `f = func() { f() }; f()`. -/
def callingItself : List Token :=
  [.ident "f", .mark .assign, .keyword .funcKw, .mark .openParen,
    .mark .closeParen, .mark .openBrace, .ident "f", .mark .openParen,
    .mark .closeParen, .mark .closeBrace, .mark .semicolon, .ident "f",
    .mark .openParen, .mark .closeParen, .eof].map
      fun kind => ⟨kind, .origin⟩

/-- A fair session without requests. -/
theorem fairSession_keepingHost :
    FairSession (fun kept value => value ∈ kept) keepingHost [] [] where
  replies := keepingHost_fair
  begins := fun _ hvalue => absurd hvalue List.not_mem_nil
  asks := trivial

theorem parse_callingItself :
    ∃ parsed, parse 1 callingItself = .ok parsed := by
  have hok : (parse 1 callingItself).map (fun _ => ()) = .ok () := by
    decide +kernel
  cases hparse : parse 1 callingItself with
  | ok parsed => exact ⟨parsed, rfl⟩
  | _ =>
      rw [hparse] at hok
      cases hok

theorem every_script_terminates_calling_itself :
    ∃ parsed, parse 1 callingItself = .ok parsed ∧
      Terminates keepingHost
        (fun workers => Worker.script workers parsed.script)
        (.start (Session.start ([] : List Value)).heap
          #[.empty 0, parsed.program] 1 .empty 3 []) := by
  obtain ⟨parsed, hparse⟩ := parse_callingItself
  refine ⟨parsed, hparse, ?_⟩
  exact (every_script_terminates fairSession_keepingHost).1 callingItself [] 3
    parsed hparse fun _ hglobal => absurd hglobal List.not_mem_nil

/-- A host that passes the scope of a function off as an array. -/
def scopeHost : Natives Unit where
  reply _ args heap _ :=
    let scope := (args.get? (.index 0)).bind heap.scopeOf?
    .answer (.ok ((scope.map Value.array).getD .null)) ()

/-- The tokens of `s = scope(func() { }); raise s`. -/
def raisingScope : List Token :=
  [.ident "s", .mark .assign, .ident "scope", .mark .openParen,
    .keyword .funcKw, .mark .openParen, .mark .closeParen, .mark .openBrace,
    .mark .closeBrace, .mark .closeParen, .mark .semicolon, .keyword .raiseKw,
    .ident "s", .eof].map fun kind => ⟨kind, .origin⟩

-- Without fairness there may be no end: here an array comes to contain itself,
-- and it has no text.
example :
    let requests : List Request := [.use 0 (.native "scope"),
      .build raisingScope [("scope", .function 0)] 3]
    let session := (Session.start ()).serveAll (evaluate scopeHost) requests
    (Session.serve (evaluate scopeHost) (.use 1 .run) session).1 =
      .halted .exhausted := by
  decide +kernel

end ChainScript
