import ChainScript.Proofs.Lookahead

/-
How far a cursor gets in its tokens.

Whatever moves are made with a cursor, its tokens stay the same.  It only goes
forward, and never over an end of file.
-/

namespace ChainScript

/-- The last of the tokens is an end of file. -/
def EndsInEof (tokens : List Token) : Prop :=
  tokens.getLast?.map Token.kind = some .eof

/-- What is left of the tokens ends in the end of file if it has not been
passed. -/
theorem EndsInEof.of_append {eaten rest : List Token}
    (hends : EndsInEof (eaten ++ rest))
    (hnone : ∀ token ∈ eaten, token.kind ≠ .eof) : EndsInEof rest := by
  unfold EndsInEof at hends ⊢
  rw [List.getLast?_append] at hends
  cases hlast : rest.getLast? with
  | some last => rwa [hlast, Option.some_or] at hends
  | none =>
      rw [hlast, Option.none_or, Option.map_eq_some_iff] at hends
      obtain ⟨last, hmem, heof⟩ := hends
      exact absurd heof (hnone last (List.mem_of_getLast? hmem))

namespace Cursor

/-- All tokens before and after the place. -/
def tokens (cursor : Cursor) : List Token :=
  cursor.passed.reverse ++ cursor.rest

/-- The first cursor gets to the second one over the tokens given, none of
which is an end of file. -/
structure Eats (before : Cursor) (eaten : List Token) (after : Cursor) :
    Prop where
  rest : before.rest = eaten ++ after.rest
  passed : after.passed = eaten.reverse ++ before.passed
  noEof : ∀ token ∈ eaten, token.kind ≠ .eof

/-- The second cursor is not behind the first one, and there is no end of file
between them. -/
def Reaches (before after : Cursor) : Prop :=
  ∃ eaten, before.Eats eaten after

/-- The cursor is in the tokens, and in front of an end of file at most. -/
structure UpToEof (tokens : List Token) (cursor : Cursor) : Prop where
  tokens : cursor.tokens = tokens
  passed : ∀ token ∈ cursor.passed, token.kind ≠ .eof
  rest : EndsInEof cursor.rest

section Reaches

variable {before middle after : Cursor}

theorem eats_nil (hrest : after.rest = before.rest)
    (hpassed : after.passed = before.passed) : before.Eats [] after :=
  ⟨hrest.symm, hpassed, nofun⟩

theorem Reaches.refl (cursor : Cursor) : cursor.Reaches cursor :=
  ⟨[], eats_nil rfl rfl⟩

theorem Eats.append {first second : List Token}
    (hfirst : before.Eats first middle) (hsecond : middle.Eats second after) :
    before.Eats (first ++ second) after where
  rest := by rw [hfirst.rest, hsecond.rest, List.append_assoc]
  passed := by
    rw [hsecond.passed, hfirst.passed, List.reverse_append, List.append_assoc]
  noEof := List.forall_mem_append.mpr ⟨hfirst.noEof, hsecond.noEof⟩

theorem Reaches.trans (hfirst : before.Reaches middle)
    (hsecond : middle.Reaches after) : before.Reaches after := by
  obtain ⟨first, hfirst⟩ := hfirst
  obtain ⟨second, hsecond⟩ := hsecond
  exact ⟨first ++ second, hfirst.append hsecond⟩

/-- What has been eaten is as long as it makes the rest shorter. -/
theorem Eats.length_rest {eaten : List Token}
    (heats : before.Eats eaten after) :
    before.rest.length = eaten.length + after.rest.length := by
  rw [heats.rest, List.length_append]

theorem Reaches.tokens_eq (hreaches : before.Reaches after) :
    after.tokens = before.tokens := by
  obtain ⟨eaten, heats⟩ := hreaches
  rw [tokens, tokens, heats.passed, heats.rest, List.reverse_append,
    List.reverse_reverse, List.append_assoc]

theorem UpToEof.reaches {tokens : List Token} (hin : before.UpToEof tokens)
    (hreaches : before.Reaches after) : after.UpToEof tokens := by
  have htokens := hreaches.tokens_eq.trans hin.tokens
  obtain ⟨eaten, heats⟩ := hreaches
  refine ⟨htokens, ?_, ?_⟩
  · rw [heats.passed, List.forall_mem_append]
    exact ⟨fun token hmem => heats.noEof token (List.mem_reverse.mp hmem),
      hin.passed⟩
  · exact (heats.rest ▸ hin.rest).of_append heats.noEof

theorem upToEof_start {tokens : List Token} (hends : EndsInEof tokens) :
    (start tokens).UpToEof tokens :=
  ⟨rfl, nofun, hends⟩

/-- A cursor that shows the end of the file stands on the token for it. -/
theorem UpToEof.on_eof {tokens : List Token} {cursor : Cursor}
    (hin : cursor.UpToEof tokens) (hkind : cursor.kind = .eof) :
    ∃ last more, cursor.rest = last :: more ∧ last.kind = .eof := by
  have hends := hin.rest
  cases hrest : cursor.rest with
  | nil =>
      rw [hrest] at hends
      cases hends
  | cons last more =>
      rw [kind, hrest] at hkind
      exact ⟨last, more, rfl, hkind⟩

end Reaches

section Moves

theorem reaches_over {cursor : Cursor} {token : Token} {rest : List Token}
    (hrest : cursor.rest = token :: rest) (heof : token.kind ≠ .eof) :
    cursor.Reaches { cursor with passed := token :: cursor.passed, rest } := by
  refine ⟨[token], hrest, rfl, ?_⟩
  rwa [List.forall_mem_singleton]

/-- The line feeds that are passed over are no end of file. -/
theorem reaches_passNewlines (passed rest : List Token) (modes : List Bool) :
    Reaches ⟨passed, rest, modes⟩
      ⟨(passNewlines passed rest).1, (passNewlines passed rest).2, modes⟩ := by
  induction rest generalizing passed with
  | nil => exact .refl _
  | cons token rest ih =>
      unfold passNewlines
      split
      · next hnewline =>
        have heof : token.kind ≠ .eof := by
          intro heof
          rw [isNewline_iff.mp hnewline] at heof
          cases heof
        exact (reaches_over rfl heof).trans (ih (token :: passed))
      · exact .refl _

variable (cursor : Cursor)

theorem reaches_skipNewlines : cursor.Reaches cursor.skipNewlines :=
  reaches_passNewlines cursor.passed cursor.rest cursor.modes

theorem reaches_settle : cursor.Reaches cursor.settle := by
  unfold settle
  split
  · exact .refl cursor
  · exact cursor.reaches_skipNewlines

theorem reaches_push (newlinesCount : Bool) :
    cursor.Reaches (cursor.push newlinesCount) := by
  unfold push
  refine .trans ?_ (reaches_settle _)
  exact ⟨[], eats_nil rfl rfl⟩

theorem reaches_pop : cursor.Reaches cursor.pop :=
  ⟨[], eats_nil rfl rfl⟩

/-- A step goes over the current token only if it is no end of file. -/
theorem reaches_advance : cursor.Reaches cursor.advance := by
  unfold advance
  refine .trans ?_ (reaches_settle _)
  split
  · next token rest hrest =>
    split
    · exact .refl cursor
    · next heof => exact reaches_over hrest heof
  · exact .refl cursor

/-- No move goes over an end of file. -/
theorem Move.reaches (move : Move) : cursor.Reaches (move.apply cursor) := by
  cases move with
  | push newlinesCount => exact cursor.reaches_push newlinesCount
  | pop => exact cursor.reaches_pop
  | advance => exact cursor.reaches_advance
  | skipNewlines => exact cursor.reaches_skipNewlines
  | eat kind =>
      simp only [Move.apply, Cursor.eat]
      split
      · exact cursor.reaches_advance
      · exact .refl cursor
  | expect kind =>
      simp only [Move.apply, Cursor.expect]
      split
      · exact cursor.reaches_advance
      · exact .refl cursor
  | expectIdent =>
      simp only [Move.apply, Cursor.expectIdent]
      split
      · exact cursor.reaches_advance
      · exact .refl cursor

/-- Nor do any number of moves. -/
theorem reaches_run (moves : List Move) :
    cursor.Reaches (cursor.run moves) := by
  induction moves generalizing cursor with
  | nil => exact .refl cursor
  | cons move moves ih => exact (Move.reaches cursor move).trans (ih _)

theorem tokens_skipNewlines : cursor.skipNewlines.tokens = cursor.tokens :=
  cursor.reaches_skipNewlines.tokens_eq

theorem tokens_advance : cursor.advance.tokens = cursor.tokens :=
  cursor.reaches_advance.tokens_eq

theorem tokens_push (newlinesCount : Bool) :
    (cursor.push newlinesCount).tokens = cursor.tokens :=
  (cursor.reaches_push newlinesCount).tokens_eq

theorem tokens_run (moves : List Move) :
    (cursor.run moves).tokens = cursor.tokens :=
  (cursor.reaches_run moves).tokens_eq

end Moves

end Cursor

end ChainScript
