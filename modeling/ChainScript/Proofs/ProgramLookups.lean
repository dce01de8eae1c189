import ChainScript.Proofs.OrderlySessions
import ChainScript.Proofs.Termination

/-
Every lookup finds its row, in the program whose row it is.

A row is found only in the program that the reference belongs to, and a missing
row abandons the evaluation.  So it has to be known, of every task, that its
code is in the program that runs then.  Functions that are handed from one
script to another take the number of their program along, and code that runs in
a captured scope, or that makes an array out of its own frame, stays in the
program that it is written in.
-/

namespace ChainScript

variable {World : Type}

/-- In every session, whatever its host does, programs have numbers of their
own and refer to their own rows only, and the code of each task and of each
interpreter is in the program that runs.  Where the host makes up no values, no
evaluation is abandoned, so that no lookup ever misses its row. -/
theorem every_lookup_finds_its_row (natives : Natives World) (world : World)
    (requests : List Request) :
    let session := (Session.start world).serveAll (evaluate natives) requests
    let history := Session.history natives world requests
    history.mapWorld Watched.world = session ∧
    SoundPrograms session.programs ∧ session.ScriptsIn ∧
    (∀ moment ∈ history.world.past, moment.CodeIn) ∧
    ∀ known, FairSession known natives world requests →
      (∀ moment ∈ history.world.past, moment.Answered) ∧
      ∀ number runner use, session.runners[number]? = some runner →
        session.Fair known (.use number use) →
        (use.body (evaluate natives) runner.script
          (session.machine runner)).1.Answered := by
  intro session history
  have horderly := Session.orderly_history natives.answerWithin_any world
    requests
  have hsession : history.mapWorld Watched.world = session :=
    Session.history_mapWorld natives world requests
  refine ⟨hsession, ?_, ?_, fun moment hmoment => ?_, fun known hfair => ?_⟩
  · rw [← hsession]
    exact horderly.programs
  · rw [← hsession]
    exact horderly.scripts
  · exact (horderly.world moment hmoment).1
  · obtain ⟨store, hat⟩ := Session.at_history hfair
    refine ⟨hat.world.answered, fun number runner use hrunner huse => ?_⟩
    exact Session.answered_use hfair hrunner huse

/-- The tokens of `func(x, y = x) { y }`. -/
def defining : List Token :=
  [.keyword .funcKw, .mark .openParen, .ident "x", .mark .comma, .ident "y",
    .mark .assign, .ident "x", .mark .closeParen, .mark .openBrace, .ident "y",
    .mark .closeBrace, .eof].map fun kind => ⟨kind, .origin⟩

/-- The tokens of `f(1)`. -/
def applying : List Token :=
  [.ident "f", .mark .openParen, .int 1, .mark .closeParen, .eof].map
    fun kind => ⟨kind, .origin⟩

/-- A function of the first script is called by the second one. -/
def handingOver : List Request :=
  [.build defining [] 3, .use 1 .run, .build applying [("f", .function 0)] 3,
    .use 2 .run]

theorem fairSession_handingOver :
    FairSession (fun kept value => value ∈ kept) keepingHost [] handingOver where
  replies := keepingHost_fair
  begins := fun _ hvalue => absurd hvalue List.not_mem_nil
  asks := by
    refine ⟨fun _ hglobal => absurd hglobal List.not_mem_nil, trivial,
      fun global hglobal => ?_, trivial, trivial⟩
    obtain rfl := List.mem_singleton.mp hglobal
    have hanswer : Value.function 0 ∈ ((Session.start ([] : List Value)).serveAll
        (evaluate keepingHost) [.build defining [] 3, .use 1 .run]).answers := by
      decide +kernel
    exact Heap.Occurs.given (.inl hanswer)

theorem every_lookup_finds_its_row_handingOver :
    FairSession (fun kept value => value ∈ kept) keepingHost [] handingOver ∧
      ∀ moment ∈ (Session.history keepingHost [] handingOver).world.past,
        moment.CodeIn ∧ moment.Answered := by
  refine ⟨fairSession_handingOver, fun moment hmoment => ?_⟩
  obtain ⟨_, _, _, hcode, hanswered⟩ :=
    every_lookup_finds_its_row keepingHost [] handingOver
  exact ⟨hcode moment hmoment,
    (hanswered _ fairSession_handingOver).1 moment hmoment⟩

-- The function runs in its own program, and the call has an answer.
example :
    ((Session.start ([] : List Value)).serveAll (evaluate keepingHost)
      handingOver).answers = [.int 1, .function 0] := by
  decide +kernel

end ChainScript
