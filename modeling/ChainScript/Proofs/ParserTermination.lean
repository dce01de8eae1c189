import ChainScript.Proofs.ParserBuilds
import ChainScript.Proofs.RespacedRuns

/-
Parsing ends.

A parser is abandoned neither for want of depth, since it consumes a token
before each reference back to a rule and in each round of a loop, nor at a row
that it does not find.  So it answers or fails, in front of the end of the file
or at it.
-/

namespace ChainScript

open Step

/-- An outcome is an answer or an error unless it is abandoned for one of the
two reasons. -/
theorem Outcome.answered_iff {ε α : Type} {outcome : Outcome ε α} :
    outcome.Answered ↔
      outcome ≠ .halted .exhausted ∧ outcome ≠ .halted .dangling := by
  cases outcome with
  | ok value => exact ⟨fun _ => ⟨nofun, nofun⟩, fun _ => trivial⟩
  | error failure => exact ⟨fun _ => ⟨nofun, nofun⟩, fun _ => trivial⟩
  | halted reason => cases reason <;> simp [Outcome.Answered]

/-- A parser that ends well is not abandoned at a missing row. -/
theorem Outcome.Ends.answered {α : Type} {zone : Zone} {Good : α → Prop}
    {outcome : Outcome ParseError α} (hends : outcome.Ends zone Good)
    (hdepth : outcome ≠ .halted .exhausted) : outcome.Answered := by
  refine answered_iff.mpr ⟨hdepth, ?_⟩
  rintro rfl
  cases hends

theorem ParserState.LeadsTo.reaches {zone : Zone} {before after : ParserState}
    (hleads : before.LeadsTo zone after) :
    before.cursor.Reaches after.cursor := by
  obtain ⟨moves, hmoves⟩ := hleads.moved
  rw [hmoves]
  exact before.cursor.reaches_run moves

theorem Outcome.answered_map {ε α β : Type} {f : α → β}
    {outcome : Outcome ε α} :
    (outcome.map f).Answered ↔ outcome.Answered := by
  cases outcome <;> exact Iff.rfl

namespace Parse

variable {α : Type} {depth : Nat} {state : ParserState}

/-- The parser answers or fails where there are fewer tokens left than `depth`.
It goes forward, and not over an end of file.  If it answers, it has consumed a
token. -/
structure Progresses (depth : Nat) (parser : Parse α) (state : ParserState) :
    Prop where
  answers : state.cursor.rest.length < depth → (parser state).1.Answered
  reaches : state.cursor.Reaches (parser state).2.cursor
  eats : ∀ value, (parser state).1 = .ok value →
    ∃ eaten, eaten ≠ [] ∧ state.cursor.Eats eaten (parser state).2.cursor

/-- A parser that consumes a token makes progress if it builds. -/
theorem SteadyAt.progresses {parser : Parse α} {Good : Program → α → Prop}
    (hsteady : SteadyAt depth 1 parser state)
    (hbuilds : Builds .everywhere state.inLoop state.program parser Good) :
    Progresses depth parser state := by
  obtain ⟨hleads, hends⟩ :=
    hbuilds state rfl (.refl _) state.inside_everywhere
  refine ⟨fun hlt => hends.answered (hsteady.answers hlt), hleads.reaches, ?_⟩
  intro value hend
  obtain ⟨eaten, heats⟩ := hleads.reaches
  refine ⟨eaten, ?_, heats⟩
  rintro rfl
  have hused := hsteady.consumes value hend
  have hlength := heats.length_rest
  rw [List.length_nil] at hlength
  omega

section Grammar

variable (depth state)

theorem progresses_expr : Progresses depth (grammar depth .expr) state :=
  ((grammar_thrifty .exprs depth).expr state).steady.progresses
    (grammar_builds _ depth .expr _ _)

theorem progresses_entry : Progresses depth (entry (grammar depth)) state :=
  (thrifty_entry (grammar_thrifty .exprs depth) state).steady.progresses
    (builds_entry (grammar_builds _ depth))

theorem progresses_statement :
    Progresses depth (statement (grammar depth)) state :=
  (((thrifty_statement (grammar_thrifty .exprs depth)).weaken
    (Nat.le_succ depth) (Nat.le_refl 1)) state).steady.progresses
    (builds_statement (grammar_builds _ depth))

end Grammar

section Success

variable {grammar : Grammar} {after : ParserState}

/-- Statements are over in front of what stops them or of an end of file. -/
theorem statementsFrom_stops {stop : TokenKind} {rounds : Nat}
    {stmts : List StmtId}
    (hend : statementsFrom grammar stop rounds state = (.ok stmts, after)) :
    after.cursor.check stop = true ∨ after.cursor.check .eof = true := by
  induction rounds generalizing state stmts with
  | zero => cases hend
  | succ rounds ih =>
      unfold statementsFrom at hend
      obtain ⟨_, skipped, _, hend⟩ := bind_eq_ok hend
      obtain ⟨stopped, _, ⟨⟩, hend⟩ := bind_eq_ok hend
      obtain ⟨ended, _, ⟨⟩, hend⟩ := bind_eq_ok hend
      split at hend
      · next hover =>
        cases hend
        exact Bool.or_eq_true_iff.mp hover
      · obtain ⟨first, _, _, hend⟩ := bind_eq_ok hend
        obtain ⟨others, _, hothers, ⟨⟩⟩ := bind_eq_ok hend
        exact ih hothers

/-- A script that is read leaves the cursor where its statements are over. -/
theorem script_stops {result : Script}
    (hend : script grammar state = (.ok result, after)) :
    after.cursor.kind = .eof := by
  unfold script within mapError at hend
  split at hend
  · cases hend
  · obtain ⟨start, _, ⟨⟩, hend⟩ := bind_eq_ok hend
    obtain ⟨rounds, _, ⟨⟩, hend⟩ := bind_eq_ok hend
    obtain ⟨stmts, stopped, hstmts, hend⟩ := bind_eq_ok hend
    obtain ⟨last, _, ⟨⟩, hend⟩ := bind_eq_ok hend
    obtain ⟨range, _, ⟨⟩, ⟨⟩⟩ := bind_eq_ok hend
    have hcheck := or_self_iff.mp (statementsFrom_stops hstmts)
    by_contra hkind
    rw [Cursor.check, TokenKind.sameVariant_eof hkind] at hcheck
    cases hcheck

end Success

end Parse

/-- Every list of tokens is parsed or refused. -/
theorem parse_answered (number : Nat) (tokens : List Token) :
    (parse number tokens).Answered := by
  obtain ⟨-, hends⟩ := runParser_builds_everywhere number tokens
  exact Outcome.answered_map.mpr
    (hends.answered (runParser_ne_exhausted number tokens))

/-- Parsing tokens that end in an end of file ends.  The cursor is never beyond
the end of the file, and stands on it if the tokens are a script.  Statements,
entries and expressions that are read are made of tokens. -/
theorem parsing_progresses {tokens : List Token} (hends : EndsInEof tokens)
    (number : Nat) :
    (parse number tokens).Answered ∧
      (∀ moves, ((Cursor.start tokens).run moves).UpToEof tokens) ∧
      (∃ moves, (runParser number tokens).2.cursor =
        (Cursor.start tokens).run moves) ∧
      (∀ script, (runParser number tokens).1 = .ok script →
        ∃ last more, (runParser number tokens).2.cursor.rest = last :: more ∧
          last.kind = .eof) ∧
      ∀ depth state,
        Parse.Progresses depth (Parse.statement (grammar depth)) state ∧
        Parse.Progresses depth (Parse.entry (grammar depth)) state ∧
        Parse.Progresses depth (grammar depth .expr) state := by
  have hin : ∀ moves, ((Cursor.start tokens).run moves).UpToEof tokens :=
    fun moves => (Cursor.upToEof_start hends).reaches
      (Cursor.reaches_run _ moves)
  obtain ⟨hleads, -⟩ := runParser_builds_everywhere number tokens
  refine ⟨parse_answered number tokens, hin, hleads.moved, fun script hend => ?_,
    fun depth state => ?_⟩
  · have hfinal : (runParser number tokens).2.cursor.UpToEof tokens :=
      (Cursor.upToEof_start hends).reaches hleads.reaches
    exact hfinal.on_eof (Parse.script_stops (Prod.ext hend rfl))
  · exact ⟨Parse.progresses_statement depth state,
      Parse.progresses_entry depth state, Parse.progresses_expr depth state⟩

/-- The tokens of a group around a name, with a line feed in it. -/
def groupTokens : List Token :=
  [⟨.mark .openParen, .origin⟩, ⟨.ident "a", .origin⟩, ⟨.newline, .origin⟩,
    ⟨.mark .closeParen, .origin⟩, ⟨.eof, .origin⟩]

theorem parsing_progresses_group :
    EndsInEof groupTokens ∧ (parse 0 groupTokens).Answered ∧
      (∃ script, (runParser 0 groupTokens).1 = .ok script) ∧
      ∃ last more, (runParser 0 groupTokens).2.cursor.rest = last :: more ∧
        last.kind = .eof := by
  have hends : EndsInEof groupTokens := rfl
  have hscript : (runParser 0 groupTokens).1 = .ok _ := rfl
  obtain ⟨hanswered, _, _, hstands, _⟩ := parsing_progresses hends 0
  exact ⟨hends, hanswered, ⟨_, hscript⟩, hstands _ hscript⟩

end ChainScript
