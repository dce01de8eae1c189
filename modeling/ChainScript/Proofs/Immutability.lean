import ChainScript.Proofs.SoundSessions

/-
Arrays never change.

Frames are shared, and code writes into them.  But what it writes into is
always the innermost frame of a scope that is in use, and such a frame belongs
to no array: it is made for the scope, and it becomes part of an array only
when the scope of an inherit block has been left for good.  A function that
captured that scope runs in a new frame on top of it.
-/

namespace ChainScript

variable {World : Type}

/-- Arrays never change in the course of a fair session.  Between any two of
its moments, the frames of every array that exists at the first one keep their
content, and the array has the same entries, the same text, and compares as it
did. -/
theorem arrays_never_change {known : World → Value → Prop}
    {natives : Natives World} {world : World} {requests : List Request}
    (hfair : FairSession known natives world requests) :
    let history := Session.history natives world requests
    history.mapWorld Watched.world =
        (Session.start world).serveAll (evaluate natives) requests ∧
      history.world.past.Pairwise fun later earlier =>
        earlier.LastsIn known later.heap := by
  intro history
  obtain ⟨store, hat⟩ := Session.at_history hfair
  exact ⟨Session.history_mapWorld natives world requests, hat.world.lasts⟩

/-- The tokens of `a = [1]; inherit b from a { n = 2; f = func() { n } }`. -/
def inheriting : List Token :=
  [.ident "a", .mark .assign, .mark .openBracket, .int 1, .mark .closeBracket,
    .mark .semicolon, .keyword .inheritKw, .ident "b", .keyword .fromKw,
    .ident "a", .mark .openBrace, .ident "n", .mark .assign, .int 2,
    .mark .semicolon, .ident "f", .mark .assign, .keyword .funcKw,
    .mark .openParen, .mark .closeParen, .mark .openBrace, .ident "n",
    .mark .closeBrace, .mark .closeBrace, .eof].map
      fun kind => ⟨kind, .origin⟩

/-- A session that runs a script twice. -/
def inheritingTwice : List Request :=
  [.build inheriting [] 3, .use 1 .run, .use 1 .run]

theorem supplied_inheritingTwice {supply : Supply}
    (hoccurs : ∀ {heap given value}, Heap.Occurs heap given value →
      supply heap given value) :
    SuppliedSession supply (fun kept value => value ∈ kept) keepingHost []
      inheritingTwice where
  replies := keepingHost_drawOn hoccurs
  begins := fun _ hvalue => absurd hvalue List.not_mem_nil
  asks := ⟨fun _ hglobal => absurd hglobal List.not_mem_nil, trivial, trivial,
    trivial⟩

theorem fairSession_inheritingTwice :
    FairSession (fun kept value => value ∈ kept) keepingHost []
      inheritingTwice :=
  supplied_inheritingTwice Heap.Occurs.obtainable

theorem arrays_never_change_inheritingTwice :
    (Session.history keepingHost [] inheritingTwice).world.past.Pairwise
      fun later earlier =>
        earlier.LastsIn (fun kept value => value ∈ kept) later.heap :=
  (arrays_never_change fairSession_inheritingTwice).2

end ChainScript
