import Mathlib.Data.List.Induction
import Mathlib.Logic.Function.Iterate
import ChainScript.Lexer
import ChainScript.Proofs.RespacedCursors

/-
Looking ahead against going there.

Looking ahead passes over line feeds that do not count, and so does every step.
Both show the same tokens, as long as the cursor itself is not at a line feed
that does not count.  All moves but one settle the cursor, or leave it as it is.
Leaving a region does not settle it, so a cursor that has just left one may be
at a line feed which counted inside and does not count outside.
-/

namespace ChainScript

namespace Cursor

/-- What a parser does with a cursor. -/
inductive Move where
  | push (newlinesCount : Bool)
  | pop
  | advance
  | eat (kind : TokenKind)
  | expect (kind : TokenKind)
  | expectIdent
  | skipNewlines
deriving Repr, DecidableEq

/-- The cursor after a move, whether or not a token was found. -/
def Move.apply : Move → Cursor → Cursor
  | .push newlinesCount, cursor => cursor.push newlinesCount
  | .pop, cursor => cursor.pop
  | .advance, cursor => cursor.advance
  | .eat kind, cursor => (cursor.eat kind).2
  | .expect kind, cursor => (cursor.expect kind).2
  | .expectIdent, cursor => cursor.expectIdent.2
  | .skipNewlines, cursor => cursor.skipNewlines

/-- The cursor after several moves. -/
def run (cursor : Cursor) (moves : List Move) : Cursor :=
  moves.foldl (fun cursor move => move.apply cursor) cursor

/-- The cursor is at a line feed, and line feeds do not count. -/
def AtIgnoredFeed (cursor : Cursor) : Prop :=
  cursor.newlinesCount = false ∧ cursor.kind = .newline

/-- Looking ahead shows the tokens that steps lead to, and no line feeds where
they do not count. -/
structure LooksAhead (cursor : Cursor) : Prop where
  steps : ∀ n, cursor.peek n = (advance^[n] cursor).kind
  current : cursor.peek 0 = cursor.kind
  visible : cursor.newlinesCount = false →
    cursor.kind ≠ .newline ∧ ∀ n, cursor.peek n ≠ .newline

variable {cursor : Cursor}

theorem run_concat (cursor : Cursor) (moves : List Move) (move : Move) :
    cursor.run (moves ++ [move]) = move.apply (cursor.run moves) := by
  simp [run]

theorem run_append (cursor : Cursor) (moves others : List Move) :
    cursor.run (moves ++ others) = (cursor.run moves).run others := by
  simp [run]

theorem run_of_still {moves : List Move}
    (hstill : ∀ move ∈ moves, move.apply cursor = cursor) :
    cursor.run moves = cursor := by
  induction moves with
  | nil => rfl
  | cons move moves ih =>
      obtain ⟨hmove, hothers⟩ := List.forall_mem_cons.mp hstill
      rw [run, List.foldl_cons, hmove]
      exact ih hothers

theorem run_pop_of_still {earlier later : List Move}
    (hstill : ∀ move ∈ later, move.apply (cursor.run earlier).pop =
      (cursor.run earlier).pop) :
    cursor.run (earlier ++ .pop :: later) = (cursor.run earlier).pop := by
  rw [run_append]
  exact run_of_still hstill

section Settled

theorem not_atIgnoredFeed_settle (cursor : Cursor) :
    ¬ cursor.settle.AtIgnoredFeed := by
  rintro ⟨hcounts, hkind⟩
  have hmodes := cursor.modes_settle
  rw [newlinesCount, hmodes, ← newlinesCount] at hcounts
  rw [kind, rest_settle_eq, hcounts] at hkind
  exact firstKind_dropWhile_ne cursor.rest hkind

theorem not_atIgnoredFeed_advance (cursor : Cursor) :
    ¬ cursor.advance.AtIgnoredFeed :=
  not_atIgnoredFeed_settle _

theorem not_atIgnoredFeed_push (cursor : Cursor) (newlinesCount : Bool) :
    ¬ (cursor.push newlinesCount).AtIgnoredFeed :=
  not_atIgnoredFeed_settle _

/-- Settling changes only a cursor that is at a line feed which does not
count. -/
theorem settle_of_not_atIgnoredFeed (hsettled : ¬ cursor.AtIgnoredFeed) :
    cursor.settle = cursor := by
  unfold settle
  split
  · rfl
  · next hcounts =>
    refine skipNewlines_eq_self fun hkind => hsettled ⟨?_, hkind⟩
    simpa using hcounts

/-- A move settles the cursor or leaves it as it is, unless it leaves a
region. -/
theorem Move.settles_or_still {move : Move} (hpop : move ≠ .pop)
    (cursor : Cursor) :
    ¬ (move.apply cursor).AtIgnoredFeed ∨ move.apply cursor = cursor := by
  cases move with
  | push newlinesCount => exact .inl (not_atIgnoredFeed_push cursor _)
  | pop => exact absurd rfl hpop
  | advance => exact .inl cursor.not_atIgnoredFeed_advance
  | eat kind =>
      simp only [Move.apply, Cursor.eat]
      split
      · exact .inl cursor.not_atIgnoredFeed_advance
      · exact .inr rfl
  | expect kind =>
      simp only [Move.apply, Cursor.expect]
      split
      · exact .inl cursor.not_atIgnoredFeed_advance
      · exact .inr rfl
  | expectIdent =>
      simp only [Move.apply, Cursor.expectIdent]
      split
      · exact .inl cursor.not_atIgnoredFeed_advance
      · exact .inr rfl
  | skipNewlines => exact .inl fun hfeed => cursor.kind_skipNewlines_ne hfeed.2

/-- A cursor is at a line feed that does not count exactly if it has left a
region there and has not found a token since. -/
theorem atIgnoredFeed_run_iff (tokens : List Token) (moves : List Move) :
    ((start tokens).run moves).AtIgnoredFeed ↔
      ∃ earlier later, moves = earlier ++ .pop :: later ∧
        ((start tokens).run earlier).pop.AtIgnoredFeed ∧
        ∀ move ∈ later, move.apply ((start tokens).run earlier).pop =
          ((start tokens).run earlier).pop := by
  constructor
  · intro hfeed
    induction moves using List.reverseRecOn with
    | nil => cases hfeed.1
    | append_singleton moves move ih =>
        rw [run_concat] at hfeed
        by_cases hpop : move = .pop
        · subst hpop
          exact ⟨moves, [], rfl, hfeed, by simp⟩
        · rcases Move.settles_or_still hpop ((start tokens).run moves) with
            hsettled | hstill
          · exact absurd hfeed hsettled
          · rw [hstill] at hfeed
            obtain ⟨earlier, later, rfl, hleft, hlater⟩ := ih hfeed
            rw [run_pop_of_still hlater] at hstill
            refine ⟨earlier, later ++ [move], by simp, hleft, ?_⟩
            rw [List.forall_mem_append]
            exact ⟨hlater, by simpa using hstill⟩
  · rintro ⟨earlier, later, rfl, hfeed, hlater⟩
    rwa [run_pop_of_still hlater]

end Settled

section Steps

/-- Passing over line feeds first does not change what is seen. -/
theorem peekIn_visible (counts : Bool) (n : Nat) (tokens : List Token) :
    peekIn counts n (if counts then tokens
      else tokens.dropWhile Token.isNewline) = peekIn counts n tokens := by
  cases counts with
  | true => rfl
  | false =>
      have hdrop := dropWhile_newlines (firstKind_dropWhile_ne tokens)
      cases n <;> simp [peekIn, hdrop]

theorem peek_settle (n : Nat) : cursor.settle.peek n = cursor.peek n := by
  have hcounts : cursor.settle.newlinesCount = cursor.newlinesCount := by
    rw [newlinesCount, modes_settle, ← newlinesCount]
  rw [peek, hcounts, rest_settle_eq, peekIn_visible, peek]

theorem peekIn_ne_newline (n : Nat) (tokens : List Token) :
    peekIn false n tokens ≠ .newline := by
  induction n generalizing tokens with
  | zero => exact firstKind_dropWhile_ne tokens
  | succ n ih =>
      rw [peekIn]
      split
      · rintro ⟨⟩
      · split
        · rintro ⟨⟩
        · exact ih _

/-- At the end of the file a step does nothing. -/
theorem advance_of_eof (hkind : cursor.kind = .eof) :
    cursor.advance = cursor.settle := by
  unfold advance
  cases hrest : cursor.rest with
  | nil => rfl
  | cons token rest =>
      rw [kind, hrest] at hkind
      simp only [if_pos (show token.kind = .eof from hkind)]

variable (hsettled : ¬ cursor.AtIgnoredFeed)

include hsettled

theorem visible_rest :
    (if cursor.newlinesCount then cursor.rest
      else cursor.rest.dropWhile Token.isNewline) = cursor.rest := by
  rw [← rest_settle_eq, settle_of_not_atIgnoredFeed hsettled]

theorem peek_eq_kind : cursor.peek 0 = cursor.kind := by
  rw [peek, peekIn, visible_rest hsettled, kind]

theorem peek_of_eof (hkind : cursor.kind = .eof) (n : Nat) :
    cursor.peek n = .eof := by
  cases n with
  | zero => rw [peek_eq_kind hsettled, hkind]
  | succ n =>
      rw [peek, peekIn, visible_rest hsettled]
      cases hrest : cursor.rest with
      | nil => rfl
      | cons token rest =>
          rw [kind, hrest] at hkind
          exact if_pos hkind

/-- A step brings everything that is seen one place nearer. -/
theorem peek_succ (n : Nat) : cursor.peek (n + 1) = cursor.advance.peek n := by
  by_cases hkind : cursor.kind = .eof
  · rw [advance_of_eof hkind, settle_of_not_atIgnoredFeed hsettled,
      peek_of_eof hsettled hkind, peek_of_eof hsettled hkind]
  · obtain ⟨token, rest, hrest, htoken⟩ := exists_cons_of_kind hkind
    have hvisible := visible_rest hsettled
    rw [hrest] at hvisible
    have hadvance : cursor.advance =
        { cursor with passed := token :: cursor.passed, rest }.settle := by
      simp only [advance, hrest, if_neg htoken]
    rw [peek, peekIn, hrest, hvisible, hadvance, peek_settle]
    exact if_neg htoken

/-- Looking ahead shows the token that as many steps lead to. -/
theorem peek_eq_kind_advance (n : Nat) :
    cursor.peek n = (advance^[n] cursor).kind := by
  induction n generalizing cursor with
  | zero => exact peek_eq_kind hsettled
  | succ n ih =>
      rw [peek_succ hsettled, Function.iterate_succ_apply]
      exact ih cursor.not_atIgnoredFeed_advance

end Steps

theorem looksAhead_iff : cursor.LooksAhead ↔ ¬ cursor.AtIgnoredFeed := by
  constructor
  · rintro hlooks ⟨hcounts, hkind⟩
    exact (hlooks.visible hcounts).1 hkind
  · intro hsettled
    refine ⟨peek_eq_kind_advance hsettled, peek_eq_kind hsettled, ?_⟩
    intro hcounts
    refine ⟨fun hkind => hsettled ⟨hcounts, hkind⟩, fun n => ?_⟩
    rw [peek, hcounts]
    exact peekIn_ne_newline n cursor.rest

/-- After any moves from the start of any tokens, looking ahead shows the tokens
that steps lead to, unless the cursor has left a region at a line feed which does
not count outside, and no move has changed anything since. -/
theorem lookahead_agrees_iff (tokens : List Token) (moves : List Move) :
    ((start tokens).run moves).LooksAhead ↔
      ¬ ∃ earlier later, moves = earlier ++ .pop :: later ∧
        ((start tokens).run earlier).pop.AtIgnoredFeed ∧
        ∀ move ∈ later, move.apply ((start tokens).run earlier).pop =
          ((start tokens).run earlier).pop := by
  rw [looksAhead_iff, atIgnoredFeed_run_iff]

/-- A block inside brackets is left at the line feed behind a name. -/
def leavingBlock : List Move :=
  [.push false, .push true, .advance, .pop]

/-- The cursor is at the line feed, which does not count, but looking ahead
shows the name in the second line. -/
theorem line_feed_shown_behind_block :
    let tokens : List Token := [⟨.ident "a", ⟨0, 1⟩⟩, ⟨.newline, ⟨1, 2⟩⟩,
      ⟨.ident "b", ⟨2, 3⟩⟩, ⟨.eof, .point 3⟩]
    let cursor := (start tokens).run leavingBlock
    lex "a\nb" = .ok tokens ∧ cursor.newlinesCount = false ∧
      cursor.kind = .newline ∧ cursor.peek 0 = .ident "b" ∧
      cursor.peek 1 ≠ cursor.advance.kind := by
  refine ⟨?_, ?_, ?_, ?_, ?_⟩ <;> decide +kernel

end Cursor

end ChainScript
