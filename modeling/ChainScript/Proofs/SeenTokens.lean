import ChainScript.Proofs.ConcreteGrammar
import ChainScript.Proofs.ParserBuilds
import ChainScript.Proofs.RespacedRuns

/-
What a parser sees of the tokens in front of it, and how it ends.

A parser sees the kinds of the significant tokens.  It runs well if it sees some
of them gone afterwards and says something good about them; a sure one does not
fail either.  One statement about a parser then serves both to read off what it
has consumed and to show that it consumes what is there.  Running out of depth is
left open, since a whole parse never does.
-/

namespace ChainScript

open Step

/-- The kinds of tokens that a lexer may give: integers without a sign, and an
end of file at the end only. -/
structure LexedKinds (kinds : List TokenKind) : Prop where
  ended : ∃ front, kinds = front ++ [.eof] ∧ TokenKind.eof ∉ front
  unsigned : ∀ value, TokenKind.int value ∈ kinds → 0 ≤ value.toInt

namespace LexedKinds

variable {kind : TokenKind} {kinds : List TokenKind}

theorem eq_eof (hlexed : LexedKinds (.eof :: kinds)) : kinds = [] := by
  obtain ⟨front, hkinds, hfront⟩ := hlexed.ended
  cases front with
  | nil => exact (List.cons.inj hkinds).2
  | cons first front =>
      obtain ⟨rfl, -⟩ := List.cons.inj hkinds
      exact absurd (List.mem_cons_self) hfront

theorem tail (hlexed : LexedKinds (kind :: kinds)) (heof : kind ≠ .eof) :
    LexedKinds kinds := by
  obtain ⟨front, hkinds, hfront⟩ := hlexed.ended
  refine ⟨?_, fun value hmem =>
    hlexed.unsigned value (List.mem_cons_of_mem _ hmem)⟩
  cases front with
  | nil => exact absurd (List.cons.inj hkinds).1 heof
  | cons first front =>
      exact ⟨front, (List.cons.inj hkinds).2,
        fun hmem => hfront (List.mem_cons_of_mem _ hmem)⟩

theorem dropWhile (hlexed : LexedKinds kinds) :
    LexedKinds (kinds.dropWhile isBreak) := by
  induction kinds with
  | nil => exact hlexed
  | cons kind kinds ih =>
      by_cases hline : kind = .newline
      · rw [List.dropWhile_cons_of_pos (by simp [isBreak, hline])]
        exact ih (hlexed.tail (by simp [hline]))
      · rwa [List.dropWhile_cons_of_neg (by simp [isBreak, hline])]

end LexedKinds

theorem eq_cons_of_firstOf {kind : TokenKind} {kinds : List TokenKind}
    (hfirst : firstOf kinds = kind) (heof : kind ≠ .eof) :
    ∃ more, kinds = kind :: more := by
  cases kinds with
  | nil => exact absurd hfirst.symm heof
  | cons found more => exact ⟨more, by rw [← hfirst]; rfl⟩

theorem exists_cons_of_firstOf {kinds : List TokenKind}
    (heof : firstOf kinds ≠ .eof) : ∃ kind more, kinds = kind :: more :=
  ⟨_, eq_cons_of_firstOf rfl heof⟩

theorem TokenKind.sameVariant_iff {kind : TokenKind}
    (hfixed : kind.hasPayload = false) (found : TokenKind) :
    found.sameVariant kind = true ↔ found = kind := by
  cases kind with
  | int | float | str | ident => cases hfixed
  | keyword word => exact sameVariant_keyword_iff found word
  | mark symbol => exact sameVariant_mark_iff found symbol
  | newline | eof => cases found <;> simp [sameVariant]

/-- The kinds of the significant tokens. -/
def significantKinds (opened : List Mark) (tokens : List Token) :
    List TokenKind :=
  (significant opened tokens).map Token.kind

section SignificantKinds

variable {opened : List Mark} {tokens : List Token}

theorem significantKinds_cons {token : Token} {rest : List Token}
    (hsettled : bracketed opened = true → token.kind ≠ .newline) :
    significantKinds opened (token :: rest) =
      token.kind :: significantKinds (openAfter opened token.kind) rest := by
  unfold significantKinds
  rw [significant_cons_of_settled rest hsettled]
  rfl

theorem significantKinds_dropNewlines (hbracketed : bracketed opened = true) :
    significantKinds opened (tokens.dropWhile Token.isNewline) =
      significantKinds opened tokens := by
  unfold significantKinds
  rw [significant_dropWhile hbracketed]

theorem dropNewlines_significantKinds :
    (significantKinds opened tokens).dropWhile isBreak =
      significantKinds opened (tokens.dropWhile Token.isNewline) := by
  unfold significantKinds
  rw [List.dropWhile_map, ← dropWhile_significant]
  rfl

theorem firstOf_significantKinds
    (hsettled : bracketed opened = true → firstKind tokens ≠ .newline) :
    firstOf (significantKinds opened tokens) = firstKind tokens := by
  cases tokens with
  | nil => rfl
  | cons token rest =>
      rw [significantKinds_cons hsettled]
      rfl

end SignificantKinds

namespace Cursor

/-- In front of the cursor are significant tokens of the given kinds. -/
structure Sees (opened : List Mark) (kinds : List TokenKind)
    (cursor : Cursor) : Prop where
  modes : cursor.modes = modesOf opened
  settled : bracketed opened = true → firstKind cursor.rest ≠ .newline
  rest : significantKinds opened cursor.rest = kinds
  lexed : LexedKinds kinds

variable {opened : List Mark} {kinds more : List TokenKind}
  {kind : TokenKind} {cursor : Cursor}

theorem sees_settle (hmodes : cursor.modes = modesOf opened)
    (hkinds : significantKinds opened cursor.rest = kinds)
    (hlexed : LexedKinds kinds) : cursor.settle.Sees opened kinds := by
  have hcounts := newlinesCount_of_modes hmodes
  refine ⟨by rw [modes_settle, hmodes], ?_, ?_, hlexed⟩
  · intro hbracketed
    rw [rest_settle_eq, hcounts, hbracketed]
    exact firstKind_dropWhile_ne _
  · rw [rest_settle_eq, hcounts]
    cases hbracketed : bracketed opened with
    | false => exact hkinds
    | true => exact (significantKinds_dropNewlines hbracketed).trans hkinds

namespace Sees

theorem kind_eq (hsees : cursor.Sees opened kinds) :
    cursor.kind = firstOf kinds := by
  rw [← hsees.rest, firstOf_significantKinds hsees.settled]
  rfl

theorem ident?_of_first {name : String} (hsees : cursor.Sees opened kinds)
    (hfirst : firstOf kinds = .ident name) : cursor.ident? = some name := by
  rw [ident?, hsees.kind_eq, hfirst]

/-- The first token that is seen is the next one. -/
theorem exists_cons (hsees : cursor.Sees opened (kind :: more)) :
    ∃ token rest, cursor.rest = token :: rest ∧ token.kind = kind ∧
      significantKinds (openAfter opened kind) rest = more := by
  have hkinds := hsees.rest
  have hsettled := hsees.settled
  cases hrest : cursor.rest with
  | nil =>
      rw [hrest] at hkinds
      cases hkinds
  | cons token rest =>
      rw [hrest] at hkinds hsettled
      rw [significantKinds_cons hsettled] at hkinds
      obtain ⟨rfl, hmore⟩ := List.cons.inj hkinds
      exact ⟨token, rest, rfl, rfl, hmore⟩

theorem kind_current_eq (hsees : cursor.Sees opened kinds) :
    cursor.current.kind = firstOf kinds :=
  cursor.kind_current.trans hsees.kind_eq

end Sees

/-- A step over a token leads to where its region is. -/
theorem sees_advance {after : List Mark} {token : Token} {rest : List Token}
    (hrest : cursor.rest = token :: rest) (heof : token.kind ≠ .eof)
    (hmodes : cursor.modes = modesOf after)
    (hkinds : significantKinds after rest = more) (hlexed : LexedKinds more) :
    cursor.advance.Sees after more := by
  rw [advance, hrest]
  simp only [if_neg heof]
  exact sees_settle hmodes hkinds hlexed

namespace Sees

/-- A step over a token that opens and closes nothing. -/
theorem advance (hsees : cursor.Sees opened (kind :: more))
    (hplain : kind.isPlain = true) (heof : kind ≠ .eof) :
    cursor.advance.Sees opened more := by
  obtain ⟨token, rest, hrest, rfl, hkinds⟩ := hsees.exists_cons
  rw [openAfter_plain hplain] at hkinds
  exact sees_advance hrest heof hsees.modes hkinds (hsees.lexed.tail heof)

/-- Entering a region at the token that opens it. -/
theorem enter {mark : Mark} (hsees : cursor.Sees opened (.mark mark :: more))
    (hopens : openAfter opened (.mark mark) = mark :: opened) :
    (cursor.push (!mark.isBracket)).advance.Sees (mark :: opened) more := by
  obtain ⟨token, rest, hrest, htoken, hkinds⟩ := hsees.exists_cons
  have hvisible : token.kind.isVisible = true := by
    rw [htoken]
    rfl
  have hpush : (cursor.push (!mark.isBracket)).rest = token :: rest := by
    rw [push, rest_settle]
    · exact hrest
    · intro _
      rw [hrest]
      exact TokenKind.ne_newline hvisible
  have hmodes : (cursor.push (!mark.isBracket)).modes =
      modesOf (mark :: opened) := by
    rw [modes_push, hsees.modes]
    rfl
  rw [hopens] at hkinds
  exact sees_advance hpush (TokenKind.ne_eof hvisible) hmodes hkinds
    (hsees.lexed.tail (TokenKind.ne_eof rfl))

/-- Leaving a region at the token that closes it. -/
theorem leave {mark close : Mark}
    (hsees : cursor.Sees (mark :: opened) (.mark close :: more))
    (hcloses : openAfter (mark :: opened) (.mark close) = opened) :
    cursor.pop.advance.Sees opened more := by
  obtain ⟨token, rest, hrest, htoken, hkinds⟩ := hsees.exists_cons
  have hmodes : cursor.pop.modes = modesOf opened := by
    rw [modes_pop, hsees.modes]
    rfl
  rw [hcloses] at hkinds
  exact sees_advance hrest (by rw [htoken]; nofun) hmodes hkinds
    (hsees.lexed.tail nofun)

theorem skipNewlines (hsees : cursor.Sees opened kinds) :
    cursor.skipNewlines.Sees opened (kinds.dropWhile isBreak) := by
  have hrest : cursor.skipNewlines.rest =
      cursor.rest.dropWhile Token.isNewline := by
    simp [Cursor.skipNewlines, passNewlines_snd]
  refine ⟨hsees.modes, fun _ => ?_, ?_, hsees.lexed.dropWhile⟩
  · rw [hrest]
    exact firstKind_dropWhile_ne _
  · rw [hrest, ← dropNewlines_significantKinds, hsees.rest]

theorem peekPastNewlines_eq (hsees : cursor.Sees opened kinds) :
    cursor.peekPastNewlines = firstOf (kinds.dropWhile isBreak) := by
  rw [← hsees.skipNewlines.kind_eq, kind_skipNewlines]

/-- Looking ahead over a plain token. -/
theorem peek_one (hsees : cursor.Sees opened (kind :: more))
    (hplain : kind.isPlain = true) (heof : kind ≠ .eof) :
    cursor.peek 1 = firstOf more := by
  rw [← kind_advance hsees.modes hsees.settled (by rwa [hsees.kind_eq])]
  exact (hsees.advance hplain heof).kind_eq

end Sees

end Cursor

/-- What is around a parser: the open delimiters, innermost first, and whether
there is a loop in the same function. -/
structure Surroundings where
  opened : List Mark
  inLoop : Bool

/-- The parser is in the surroundings, in front of tokens of the given kinds. -/
structure ParserState.Sees (around : Surroundings) (kinds : List TokenKind)
    (state : ParserState) : Prop where
  cursor : state.cursor.Sees around.opened kinds
  inLoop : state.inLoop = around.inLoop

namespace Parse

variable {α β : Type}

/-- How a run of a parser has ended.  Where `sure`, it has not failed. -/
def EndsWell (sure : Bool) (around : Surroundings) (began : ParserState)
    (Good : Program → α → List TokenKind → Prop) :
    Outcome ParseError α × ParserState → Prop
  | (.ok value, final) =>
      ∃ after, final.Sees around after ∧ final.loopDepth = began.loopDepth ∧
        began.program.Grows final.program ∧ Good final.program value after
  | (.error _, _) => sure = false
  | (.halted .exhausted, _) => True
  | (.halted .dangling, _) => sure = false

/-- Where the parser sees tokens of the kinds `before` and the tables have grown
from `base`, it ends with something good about the tables, its answer and what
it sees then. -/
def Runs (sure : Bool) (around : Surroundings) (base : Program)
    (parser : Parse α) (before : List TokenKind)
    (Good : Program → α → List TokenKind → Prop) : Prop :=
  ∀ state : ParserState, state.Sees around before →
    base.Grows state.program →
    EndsWell sure around state Good (parser state)

variable {sure : Bool} {around : Surroundings} {base : Program}
  {before more : List TokenKind} {first : Parse α} {next : α → Parse β}
  {Mid : Program → α → List TokenKind → Prop}
  {Good : Program → β → List TokenKind → Prop}

section Rules

/-- What ends well ends well from an earlier state on. -/
theorem EndsWell.since {began between : ParserState}
    {ended : Outcome ParseError β × ParserState}
    (hends : EndsWell sure around between Good ended)
    (hloops : between.loopDepth = began.loopDepth)
    (hgrows : began.program.Grows between.program) :
    EndsWell sure around began Good ended := by
  obtain ⟨outcome, final⟩ := ended
  cases outcome with
  | ok value =>
      obtain ⟨after, hafter, hstill, hmore, hgood⟩ := hends
      exact ⟨after, hafter, hstill.trans hloops, hgrows.trans hmore, hgood⟩
  | error error => exact hends
  | halted reason => cases reason <;> exact hends

theorem Runs.bind (hfirst : Runs sure around base first before Mid)
    (hnext : ∀ program value after, base.Grows program →
      Mid program value after →
      Runs sure around program (next value) after Good) :
    Runs sure around base (first >>= next) before Good := by
  intro state hstate hgrows
  have hbegan := hfirst state hstate hgrows
  rw [bind_apply]
  generalize first state = began at hbegan ⊢
  obtain ⟨outcome, between⟩ := began
  cases outcome with
  | ok value =>
      obtain ⟨middle, hmiddle, hloops, hmore, hmid⟩ := hbegan
      have hlast := hnext _ value middle (hgrows.trans hmore) hmid between
        hmiddle (.refl _)
      exact hlast.since hloops hmore
  | error error => exact hbegan
  | halted reason => cases reason <;> exact hbegan

theorem Runs.mono {parser : Parse β}
    {Better : Program → β → List TokenKind → Prop}
    (hruns : Runs sure around base parser before Good)
    (himp : ∀ program value after, base.Grows program →
      Good program value after → Better program value after) :
    Runs sure around base parser before Better := by
  intro state hstate hgrows
  have hends := hruns state hstate hgrows
  generalize parser state = ended at hends ⊢
  obtain ⟨outcome, final⟩ := ended
  cases outcome with
  | ok value =>
      obtain ⟨after, hafter, hloops, hmore, hgood⟩ := hends
      exact ⟨after, hafter, hloops, hmore,
        himp _ _ _ (hgrows.trans hmore) hgood⟩
  | error error => exact hends
  | halted reason => cases reason <;> exact hends

theorem Runs.grows {parser : Parse β} {newer : Program}
    (hruns : Runs sure around base parser before Good)
    (hgrows : base.Grows newer) :
    Runs sure around newer parser before Good :=
  fun state hstate hmore => hruns state hstate (hgrows.trans hmore)

theorem runs_pure {value : β}
    (hgood : ∀ program, base.Grows program → Good program value before) :
    Runs sure around base (pure value) before Good :=
  fun _ hstate hgrows =>
    ⟨before, hstate, rfl, .refl _, hgood _ hgrows⟩

theorem runs_exhausted :
    Runs sure around base (Step.halt .exhausted) before Good :=
  fun _ _ _ => trivial

theorem runs_fault {cause : TokenKind → ParseFault} (hsure : sure = false) :
    Runs sure around base (fault cause) before Good :=
  fun _ _ _ => hsure

theorem runs_fail {error : ParseError} (hsure : sure = false) :
    Runs sure around base (Step.fail error) before Good :=
  fun _ _ _ => hsure

/-- What is read off the cursor. -/
theorem Runs.look {f : Cursor → α}
    (hnext : ∀ cursor : Cursor, cursor.Sees around.opened before →
      Runs sure around base (next (f cursor)) before Good) :
    Runs sure around base (look f >>= next) before Good :=
  fun state hstate hgrows =>
    hnext state.cursor hstate.cursor state hstate hgrows

theorem Runs.kind {next : TokenKind → Parse β}
    (hnext : Runs sure around base (next (firstOf before)) before Good) :
    Runs sure around base (kind >>= next) before Good :=
  .look fun _ hsees => by rwa [hsees.kind_eq]

theorem Runs.check {kind : TokenKind} {next : Bool → Parse β}
    (hnext : Runs sure around base (next ((firstOf before).sameVariant kind))
      before Good) :
    Runs sure around base (check kind >>= next) before Good :=
  .look fun _ hsees => by rwa [Cursor.check, hsees.kind_eq]

theorem Runs.read {f : ParserState → α}
    (hnext : ∀ state : ParserState, state.Sees around before →
      Runs sure around base (next (f state)) before Good) :
    Runs sure around base (Step.read f >>= next) before Good :=
  fun state hstate hgrows => hnext state hstate state hstate hgrows

private theorem sees_moved {state : ParserState}
    (hstate : state.Sees around before) {cursor : Cursor}
    (hcursor : cursor.Sees around.opened more) :
    ParserState.Sees around more { state with cursor } :=
  ⟨hcursor, hstate.inLoop⟩

/-- A step over a token that opens and closes nothing. -/
theorem Runs.step {kind : TokenKind} {next : Token → Parse β}
    (hplain : kind.isPlain = true) (heof : kind ≠ .eof)
    (hnext : ∀ token : Token, token.kind = kind →
      Runs sure around base (next token) more Good) :
    Runs sure around base (Parse.advance >>= next) (kind :: more) Good := by
  intro state hstate hgrows
  exact hnext state.cursor.current hstate.cursor.kind_current_eq _
    (sees_moved hstate (hstate.cursor.advance hplain heof)) hgrows

/-- A token is consumed if it comes first. -/
theorem Runs.eat {kind : TokenKind} {next : Bool → Parse β}
    (hfixed : kind.hasPayload = false) (hplain : kind.isPlain = true)
    (heof : kind ≠ .eof)
    (htrue : ∀ more, before = kind :: more →
      Runs sure around base (next true) more Good)
    (hfalse : firstOf before ≠ kind →
      Runs sure around base (next false) before Good) :
    Runs sure around base (eat kind >>= next) before Good := by
  intro state hstate hgrows
  have hcheck : state.cursor.check kind = true ↔ firstOf before = kind := by
    rw [Cursor.check, hstate.cursor.kind_eq]
    exact TokenKind.sameVariant_iff hfixed _
  by_cases hfirst : firstOf before = kind
  · obtain ⟨more, rfl⟩ := eq_cons_of_firstOf hfirst heof
    have hrun : (Parse.eat kind >>= next) state =
        next true { state with cursor := state.cursor.advance } := by
      simp [bind_apply, Parse.eat, Cursor.eat, hcheck.mpr hfirst]
    rw [hrun]
    exact htrue more rfl _
      (sees_moved hstate (hstate.cursor.advance hplain heof)) hgrows
  · have hrun : (Parse.eat kind >>= next) state = next false state := by
      simp [bind_apply, Parse.eat, Cursor.eat, mt hcheck.mp hfirst]
    rw [hrun]
    exact hfalse hfirst state hstate hgrows

/-- What a fallible step of the cursor does: it moves on, or fails. -/
private theorem Runs.ofCursor {f : Cursor → Except ParseError α × Cursor}
    (hmoves : ∀ cursor : Cursor, cursor.Sees around.opened before →
      (∃ value last more, f cursor = (.ok value, last) ∧
        last.Sees around.opened more ∧
        Runs sure around base (next value) more Good) ∨
      (sure = false ∧ ∃ error last, f cursor = (.error error, last))) :
    Runs sure around base (ofCursor f >>= next) before Good := by
  intro state hstate hgrows
  rcases hmoves state.cursor hstate.cursor with
    ⟨value, last, more, hrun, hlast, hnext⟩ | ⟨hsure, error, last, hrun⟩
  · have hboth : (Parse.ofCursor f >>= next) state =
        next value { state with cursor := last } := by
      simp [bind_apply, Parse.ofCursor, hrun]
    rw [hboth]
    exact hnext _ (sees_moved hstate hlast) hgrows
  · have hboth : (Parse.ofCursor f >>= next) state =
        (.error error, { state with cursor := last }) := by
      simp [bind_apply, Parse.ofCursor, hrun]
    rw [hboth]
    exact hsure

theorem Runs.expect {kind : TokenKind} {next : Token → Parse β}
    (hfixed : kind.hasPayload = false) (hplain : kind.isPlain = true)
    (heof : kind ≠ .eof) (hsure : sure = true → firstOf before = kind)
    (hnext : ∀ token more, before = kind :: more →
      Runs sure around base (next token) more Good) :
    Runs sure around base (expect kind >>= next) before Good := by
  refine .ofCursor fun cursor hsees => ?_
  have hcheck : cursor.check kind = true ↔ firstOf before = kind := by
    rw [Cursor.check, hsees.kind_eq]
    exact TokenKind.sameVariant_iff hfixed _
  by_cases hfirst : firstOf before = kind
  · obtain ⟨more, rfl⟩ := eq_cons_of_firstOf hfirst heof
    exact .inl ⟨cursor.current, cursor.advance, more,
      by simp [Cursor.expect, hcheck.mpr hfirst],
      hsees.advance hplain heof, hnext _ _ rfl⟩
  · exact .inr ⟨by simpa using mt hsure hfirst, _, cursor,
      by simp [Cursor.expect, mt hcheck.mp hfirst]; rfl⟩

theorem Runs.expectIdent {next : String → Parse β}
    (hsure : sure = true → ∃ name, firstOf before = .ident name)
    (hnext : ∀ name more, before = .ident name :: more →
      Runs sure around base (next name) more Good) :
    Runs sure around base (expectIdent >>= next) before Good := by
  refine .ofCursor fun cursor hsees => ?_
  have hkind := hsees.kind_eq
  by_cases hident : ∃ name, firstOf before = .ident name
  · obtain ⟨name, hfirst⟩ := hident
    obtain ⟨more, rfl⟩ := eq_cons_of_firstOf hfirst nofun
    exact .inl ⟨name, cursor.advance, more,
      by simp [Cursor.expectIdent, Cursor.ident?, hkind],
      hsees.advance rfl nofun, hnext _ _ rfl⟩
  · have hnone : cursor.ident? = none := by
      rw [Cursor.ident?, hkind]
      cases hfirst : firstOf before with
      | ident name => exact absurd ⟨name, hfirst⟩ hident
      | _ => rfl
    exact .inr ⟨by simpa using mt hsure hident, _, cursor,
      by simp [Cursor.expectIdent, hnone]; rfl⟩

theorem Runs.skipNewlines {next : Unit → Parse β}
    (hnext : Runs sure around base (next ())
      (before.dropWhile isBreak) Good) :
    Runs sure around base (skipNewlines >>= next) before Good :=
  fun _ hstate hgrows =>
    hnext _ (sees_moved hstate hstate.cursor.skipNewlines) hgrows

theorem Runs.within (context : ParseContext) {parser : Parse β}
    (hparser : Runs sure around base parser before Good) :
    Runs sure around base (within context parser) before Good := by
  intro state hstate hgrows
  have hends := hparser state hstate hgrows
  unfold Parse.within mapError
  generalize parser state = ended at hends ⊢
  obtain ⟨outcome, final⟩ := ended
  cases outcome with
  | ok value => exact hends
  | error error => exact hends
  | halted reason => cases reason <;> exact hends

/-- A parser between changes to the number of loops around it. -/
private theorem Runs.between {parser wrapped : Parse β} {inLoop : Bool}
    (enter : ParserState → ParserState)
    (leave : ParserState → ParserState → ParserState)
    (hparser : Runs sure ⟨around.opened, inLoop⟩ base parser before Good)
    (hrun : ∀ state, wrapped state =
      ((parser (enter state)).1, leave state (parser (enter state)).2))
    (henter : ∀ state, (enter state).cursor = state.cursor ∧
      (enter state).program = state.program ∧ (enter state).inLoop = inLoop)
    (hleave : ∀ state after : ParserState,
      after.loopDepth = (enter state).loopDepth →
      (leave state after).cursor = after.cursor ∧
      (leave state after).program = after.program ∧
      (leave state after).loopDepth = state.loopDepth) :
    Runs sure around base wrapped before Good := by
  intro state hstate hgrows
  obtain ⟨hcursor, hprogram, hloop⟩ := henter state
  have hends := hparser (enter state) ⟨by rw [hcursor]; exact hstate.cursor,
    hloop⟩ (by rw [hprogram]; exact hgrows)
  rw [hrun]
  generalize parser (enter state) = ended at hends ⊢
  obtain ⟨outcome, final⟩ := ended
  cases outcome with
  | ok value =>
      obtain ⟨after, hafter, hloops, hmore, hgood⟩ := hends
      obtain ⟨hstays, hsame, hback⟩ := hleave state final hloops
      refine ⟨after, ⟨by rw [hstays]; exact hafter.cursor, ?_⟩, hback, ?_, ?_⟩
      · have hinLoop := hstate.inLoop
        rw [ParserState.inLoop] at hinLoop ⊢
        rw [hback, hinLoop]
      · rw [hsame, ← hprogram]
        exact hmore
      · rw [hsame]
        exact hgood
  | error error => exact hends
  | halted reason => cases reason <;> exact hends

theorem Runs.inLoop {parser : Parse β}
    (hparser : Runs sure ⟨around.opened, true⟩ base parser before Good) :
    Runs sure around base (inLoop parser) before Good :=
  hparser.between
    (fun state => { state with loopDepth := state.loopDepth + 1 })
    (fun _ after => { after with loopDepth := after.loopDepth - 1 })
    (fun _ => rfl) (fun _ => ⟨rfl, rfl, rfl⟩)
    fun _ _ hloops => ⟨rfl, rfl, by dsimp only at hloops ⊢; omega⟩

theorem Runs.inFunction {parser : Parse β}
    (hparser : Runs sure ⟨around.opened, false⟩ base parser before Good) :
    Runs sure around base (inFunction parser) before Good :=
  hparser.between (fun state => { state with loopDepth := 0 })
    (fun state after => { after with loopDepth := state.loopDepth })
    (fun _ => rfl) (fun _ => ⟨rfl, rfl, rfl⟩) fun _ _ _ => ⟨rfl, rfl, rfl⟩

end Rules

section Tables

theorem runs_add {f : Program → β × Program}
    (hadds : ∀ program : Program, program.Grows (f program).2)
    (hgood : ∀ program value, base.Grows program →
      Good program value before) :
    Runs sure around base (add f) before Good :=
  fun state hstate hgrows =>
    ⟨before, ⟨hstate.cursor, hstate.inLoop⟩, rfl, hadds state.program,
      hgood _ _ (hgrows.trans (hadds state.program))⟩

theorem Runs.add {f : Program → α × Program} {next : α → Parse β}
    (hadds : ∀ program : Program, program.Grows (f program).2)
    (hnext : ∀ program value, base.Grows program →
      Runs sure around program (next value) before Good) :
    Runs sure around base (Parse.add f >>= next) before Good := by
  have hadded : Runs sure around base (Parse.add f) before
      fun _ _ after => after = before := runs_add hadds fun _ _ _ => rfl
  exact hadded.bind fun program value _ hgrows hafter =>
    hafter ▸ hnext program value hgrows

theorem runs_addExpr {kind : ExprKind} {span : Span}
    {Good : Program → ExprId → List TokenKind → Prop}
    (hgood : ∀ program id, base.Grows program →
      program.ExprIs id (· = kind) → Good program id before) :
    Runs sure around base (addExpr kind span) before Good :=
  fun state hstate hgrows =>
    have hmore := Program.grows_addExpr state.program ⟨kind, span⟩
    ⟨before, ⟨hstate.cursor, hstate.inLoop⟩, rfl, hmore,
      hgood _ _ (hgrows.trans hmore) ⟨_, state.program.expr?_addExpr _, rfl⟩⟩

/-- The row of an expression that is there. -/
theorem Runs.row {id : ExprId} {form : ExprKind → Prop} {next : Expr → Parse β}
    (hexpr : base.ExprIs id form)
    (hnext : ∀ row : Expr, form row.kind →
      Runs sure around base (next row) before Good) :
    Runs sure around base (expr id >>= next) before Good := by
  intro state hstate hgrows
  obtain ⟨row, hrow, hform⟩ := hexpr.grows hgrows fun _ hform => hform
  have hrun : (expr id >>= next) state = next row state := by
    simp [expr, bind_apply, found, hrow, Outcome.ofOption]
  rw [hrun]
  exact hnext row hform state hstate hgrows

theorem Runs.spanOf {id : ExprId} {next : Span → Parse β}
    (hexpr : base.HasExpr id)
    (hnext : ∀ span, Runs sure around base (next span) before Good) :
    Runs sure around base (Parse.spanOf id >>= next) before Good := by
  obtain ⟨expr, hrow⟩ := hexpr
  have hthere : base.ExprIs id fun _ => True := ⟨expr, hrow, trivial⟩
  rw [Parse.spanOf, Step.bind_assoc]
  exact Runs.row hthere fun row _ => hnext row.span

theorem runs_addJoined {join : ExprId → ExprId → ExprKind}
    {left right : ExprId} (hleft : base.HasExpr left)
    (hright : base.HasExpr right) :
    Runs sure around base (addJoined join left right) before
      fun program id after =>
        after = before ∧ program.ExprIs id (· = join left right) :=
  .spanOf hleft fun _ => .spanOf hright fun _ =>
    runs_addExpr fun _ _ _ hexpr => ⟨rfl, hexpr⟩

theorem runs_addUnary {op : UnaryOp} {start : Span} {operand : ExprId}
    (hoperand : base.HasExpr operand) :
    Runs sure around base (addUnary op start operand) before
      fun program id after =>
        after = before ∧ program.ExprIs id (· = .unary op operand) :=
  .spanOf hoperand fun _ => runs_addExpr fun _ _ _ hexpr => ⟨rfl, hexpr⟩

end Tables

section Regions

variable {mark close : Mark}

/-- The step over a delimiter that closes a region, which fails at any other
token. -/
def Closes (close : Mark) (closer : Parse Token) : Prop :=
  ∀ state : ParserState,
    (state.cursor.kind = .mark close → closer state = advance state) ∧
    (state.cursor.kind ≠ .mark close →
      ∃ error, (closer state).1 = .error error)

theorem closes_expect (close : Mark) : Closes close (expect (.mark close)) := by
  intro state
  have hcheck : state.cursor.check (.mark close) = true ↔
      state.cursor.kind = .mark close :=
    TokenKind.sameVariant_mark_iff _ _
  refine ⟨fun hkind => ?_, fun hkind => ?_⟩
  · simp only [expect, Parse.ofCursor, Cursor.expect, hcheck.mpr hkind, if_true]
    rfl
  · simp [expect, Parse.ofCursor, Cursor.expect, mt hcheck.mp hkind]

/-- The delimiter that closes a region, looked for before the step over it. -/
def closing (close : Mark) (cause : TokenKind → ParseFault) : Parse Token := do
  if ← check (.mark close) then advance else fault cause

theorem closes_closing (close : Mark) (cause : TokenKind → ParseFault) :
    Closes close (closing close cause) := by
  intro state
  have hcheck : state.cursor.check (.mark close) = true ↔
      state.cursor.kind = .mark close :=
    TokenKind.sameVariant_mark_iff _ _
  have hrun : closing close cause state =
      (if state.cursor.check (.mark close) then advance else fault cause)
        state := rfl
  refine ⟨fun hkind => ?_, fun hkind => ?_⟩
  · rw [hrun, hcheck.mpr hkind]
    rfl
  · rw [hrun, if_neg (mt hcheck.mp hkind)]
    exact ⟨_, rfl⟩

theorem closing_bind (cause : TokenKind → ParseFault) (next : Token → Parse β) :
    (do if ← check (.mark close) then next (← advance) else fault cause) =
      closing close cause >>= next := by
  funext state
  cases hcheck : state.cursor.check (.mark close) <;>
    simp [closing, check, look, bind_apply, hcheck, fault]

/-- Behind the delimiter that closes it, a region is left. -/
private theorem Closes.endsWell {closer : Parse Token}
    (hcloser : Closes close closer)
    (hcloses : openAfter (mark :: around.opened) (.mark close) = around.opened)
    {inner : ParserState} {after : List TokenKind}
    (hinner : inner.Sees ⟨mark :: around.opened, around.inLoop⟩ after)
    (hsure : sure = true → firstOf after = .mark close)
    {next : Token → Parse β}
    (hnext : ∀ token more, after = .mark close :: more →
      Runs sure around inner.program (next token) more Good) :
    EndsWell sure around inner Good
      ((closer >>= next) { inner with cursor := inner.cursor.pop }) := by
  have hpop : inner.cursor.pop.kind = firstOf after := hinner.cursor.kind_eq
  by_cases hclose : firstOf after = .mark close
  · obtain ⟨more, rfl⟩ := eq_cons_of_firstOf hclose nofun
    have hstep := (hcloser { inner with cursor := inner.cursor.pop }).1
      (hpop.trans hclose)
    have hleft : ParserState.Sees around more
        { inner with cursor := inner.cursor.pop.advance } :=
      ⟨hinner.cursor.leave hcloses, hinner.inLoop⟩
    rw [bind_of_ok hstep]
    exact hnext _ more rfl _ hleft (.refl _)
  · have hfails := (hcloser { inner with cursor := inner.cursor.pop }).2
      (fun hkind => hclose (hpop.symm.trans hkind))
    rw [bind_apply]
    generalize closer { inner with cursor := inner.cursor.pop } = ended
      at hfails ⊢
    obtain ⟨outcome, final⟩ := ended
    obtain ⟨error, rfl⟩ := hfails
    cases sure with
    | false => rfl
    | true => exact absurd (hsure rfl) hclose

/-- A region, from the delimiter that opens it to the one that closes it. -/
theorem Runs.region {body : Parse α} {closer : Parse Token}
    {next : α → Token → Parse β} {inside : List TokenKind}
    (hopens : openAfter around.opened (.mark mark) = mark :: around.opened)
    (hcloses : openAfter (mark :: around.opened) (.mark close) = around.opened)
    {newlinesCount : Bool} (hmode : newlinesCount = !mark.isBracket)
    (hcloser : Closes close closer)
    (hbody : Runs sure ⟨mark :: around.opened, around.inLoop⟩ base body inside
      Mid)
    (hsure : sure = true → ∀ program value after, Mid program value after →
      firstOf after = .mark close)
    (hnext : ∀ program value after token, base.Grows program →
      Mid program value (.mark close :: after) →
      Runs sure around program (next value token) after Good) :
    Runs sure around base
      (do
        let value ← inRegion newlinesCount do
          let _ ← advance
          body
        let token ← closer
        next value token)
      (.mark mark :: inside) Good := by
  subst hmode
  intro state hstate hgrows
  let began : ParserState :=
    { state with cursor := (state.cursor.push (!mark.isBracket)).advance }
  have hbegan : began.Sees ⟨mark :: around.opened, around.inLoop⟩ inside :=
    ⟨hstate.cursor.enter hopens, hstate.inLoop⟩
  have hregion : inRegion (!mark.isBracket) (do let _ ← advance; body) state =
      ((body began).1,
        { (body began).2 with cursor := (body began).2.cursor.pop }) := rfl
  have hends := hbody began hbegan hgrows
  rw [bind_apply, hregion]
  generalize body began = ended at hends ⊢
  obtain ⟨outcome, inner⟩ := ended
  cases outcome with
  | ok value =>
      obtain ⟨after, hafter, hloops, hmore, hmid⟩ := hends
      have hlast := hcloser.endsWell hcloses hafter
        (fun hcertain => hsure hcertain _ _ _ hmid)
        fun token more hclose => hnext _ value more token
          (hgrows.trans hmore) (hclose ▸ hmid)
      exact hlast.since hloops hmore
  | error error => exact hends
  | halted reason => cases reason <;> exact hends

/-- A region whose opener is consumed in front of it. -/
theorem Runs.openRegion {body : Parse α} {next : α → Parse β}
    (hsure : sure = true → firstOf before = .mark mark)
    (hregion : ∀ inside, before = .mark mark :: inside →
      Runs sure around base
        (inRegion false (do let _ ← advance; body) >>= next)
        (.mark mark :: inside) Good) :
    Runs sure around base
      (do let _ ← Parse.expect (.mark mark); inRegion false body >>= next)
      before Good := by
  intro state hstate hgrows
  have hkind := hstate.cursor.kind_eq
  by_cases hfirst : firstOf before = .mark mark
  · obtain ⟨inside, rfl⟩ := eq_cons_of_firstOf hfirst nofun
    rw [expect_inRegion body next hkind]
    exact hregion inside rfl state hstate hgrows
  · obtain ⟨error, hfails⟩ := (closes_expect mark state).2
      (fun hmark => hfirst (hkind.symm.trans hmark))
    rw [bind_apply]
    generalize Parse.expect (.mark mark) state = last at hfails ⊢
    obtain ⟨outcome, final⟩ := last
    obtain rfl := hfails
    cases sure with
    | false => rfl
    | true => exact absurd (hsure rfl) hfirst

end Regions

end Parse

end ChainScript
