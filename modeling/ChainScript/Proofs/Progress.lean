import ChainScript.Proofs.Acceptance

/-
Parsing always makes progress.

Every rule of the grammar puts the modes and the number of loops back, however
it ends, and leaves no more tokens than it found.  A rule that answers has
consumed a token.  So the rules that a rule refers back to start further on in
the tokens, and the depth that is allowed for a list of tokens, and the rounds
that are allowed for a loop, are never used up.
-/

namespace ChainScript

open Step

namespace Parse

variable {α β : Type}

/-- From the state, the parser restores what surrounds it and leaves no more
tokens than there were.  If it answers, it has consumed `count` of them, and it
is not abandoned for want of depth where there are fewer than `depth`. -/
structure SteadyAt (depth count : Nat) (parser : Parse α)
    (state : ParserState) : Prop where
  modes : (parser state).2.cursor.modes = state.cursor.modes
  loopDepth : (parser state).2.loopDepth = state.loopDepth
  shrinks : (parser state).2.cursor.rest.length ≤ state.cursor.rest.length
  consumes : ∀ value, (parser state).1 = .ok value →
    (parser state).2.cursor.rest.length + count ≤ state.cursor.rest.length
  answers : state.cursor.rest.length < depth →
    (parser state).1 ≠ .halted .exhausted

/-- The parser is steady wherever it starts. -/
def Steady (depth count : Nat) (parser : Parse α) : Prop :=
  ∀ state, SteadyAt depth count parser state

end Parse

theorem isNewline_iff {token : Token} :
    token.isNewline = true ↔ token.kind = .newline := by
  simp [Token.isNewline]

/-- Passing over line feeds stops at something else. -/
theorem firstKind_dropWhile_ne (tokens : List Token) :
    firstKind (tokens.dropWhile Token.isNewline) ≠ .newline := by
  induction tokens with
  | nil => nofun
  | cons token rest ih =>
      by_cases hline : token.isNewline = true
      · rwa [List.dropWhile_cons_of_pos hline]
      · rw [List.dropWhile_cons_of_neg hline]
        exact mt isNewline_iff.mpr hline

/-- Going over a token of the kind consumes so many tokens: one, unless it is
the end of the file. -/
structure TokenKind.Yields (kind : TokenKind) (count : Nat) : Prop where
  le_one : count ≤ 1
  ofEof : kind = .eof → count = 0

theorem TokenKind.Yields.zero (kind : TokenKind) : kind.Yields 0 :=
  ⟨Nat.zero_le 1, fun _ => rfl⟩

theorem TokenKind.Yields.one {kind : TokenKind} (hkind : kind ≠ .eof) :
    kind.Yields 1 :=
  ⟨Nat.le_refl 1, fun heof => absurd heof hkind⟩

namespace Cursor

variable (cursor : Cursor)

theorem kind_skipNewlines :
    cursor.skipNewlines.kind = cursor.peekPastNewlines := by
  simp only [kind, peekPastNewlines, skipNewlines, passNewlines_snd]

theorem kind_skipNewlines_ne : cursor.skipNewlines.kind ≠ .newline := by
  rw [kind_skipNewlines]
  exact firstKind_dropWhile_ne cursor.rest

/-- Line feeds are passed over on the way into a region, at most. -/
theorem rest_push_suffix (newlinesCount : Bool) :
    (cursor.push newlinesCount).rest <:+ cursor.rest := by
  unfold push settle
  split
  · exact List.suffix_refl _
  · change (passNewlines _ _).2 <:+ _
    rw [passNewlines_snd]
    exact List.dropWhile_suffix _

theorem length_push_le (newlinesCount : Bool) :
    (cursor.push newlinesCount).rest.length ≤ cursor.rest.length :=
  (cursor.rest_push_suffix newlinesCount).length_le

variable {cursor}

theorem exists_cons_of_kind (hkind : cursor.kind ≠ .eof) :
    ∃ token rest, cursor.rest = token :: rest ∧ token.kind ≠ .eof := by
  cases hrest : cursor.rest with
  | nil =>
      simp [Cursor.kind, hrest, firstKind] at hkind
  | cons token rest =>
      rw [Cursor.kind, hrest] at hkind
      exact ⟨token, rest, rfl, hkind⟩

theorem length_advance_add_le {count : Nat}
    (hyields : cursor.kind.Yields count) :
    cursor.advance.rest.length + count ≤ cursor.rest.length := by
  have hle := cursor.length_advance_le
  by_cases hkind : cursor.kind = .eof
  · rw [hyields.ofEof hkind]
    exact hle
  · have hlt := cursor.length_advance_lt hkind
    have hone := hyields.le_one
    omega

/-- What is gone over on the way into a region and over its first token is at
least the token in front of it. -/
theorem length_enter_add_le {count : Nat} (newlinesCount : Bool)
    (hyields : cursor.kind.Yields count) :
    (cursor.push newlinesCount).advance.rest.length + count ≤
      cursor.rest.length := by
  have hle := cursor.length_push_le newlinesCount
  by_cases hrest : (cursor.push newlinesCount).rest = cursor.rest
  · have hkind : (cursor.push newlinesCount).kind = cursor.kind := by
      rw [kind, kind, hrest]
    have hmore := length_advance_add_le (hkind ▸ hyields)
    omega
  · -- Line feeds have been passed over.
    have hne : (cursor.push newlinesCount).rest.length ≠
        cursor.rest.length := fun hlength =>
      hrest ((rest_push_suffix cursor newlinesCount).eq_of_length hlength)
    have hmore := (cursor.push newlinesCount).length_advance_le
    have hone := hyields.le_one
    omega

/-- Entering a region does not pass over a visible token. -/
theorem kind_push {newlinesCount : Bool}
    (hkind : cursor.kind.isVisible = true) :
    (cursor.push newlinesCount).kind = cursor.kind := by
  have hrest : (cursor.push newlinesCount).rest = cursor.rest := by
    unfold push
    exact rest_settle fun _ => TokenKind.ne_newline hkind
  rw [kind, kind, hrest]

end Cursor

namespace Parse

variable {α β : Type} {depth count : Nat} {state : ParserState}

theorem SteadyAt.mono {parser : Parse α} {less fewer : Nat}
    (hparser : SteadyAt depth count parser state) (hdepth : less ≤ depth)
    (hcount : fewer ≤ count) : SteadyAt less fewer parser state :=
  { hparser with
    consumes := fun value hend => by
      have hle := hparser.consumes value hend
      omega
    answers := fun hlt => hparser.answers (Nat.lt_of_lt_of_le hlt hdepth) }

/-- Less depth may be allowed, and less may be counted. -/
theorem Steady.mono {parser : Parse α} {less fewer : Nat}
    (hparser : Steady depth count parser) (hdepth : less ≤ depth)
    (hcount : fewer ≤ count) : Steady less fewer parser :=
  fun state => (hparser state).mono hdepth hcount

/-- Only what a parser does at the state counts. -/
theorem SteadyAt.congr {parser other : Parse α}
    (hother : SteadyAt depth count other state)
    (hsame : parser state = other state) :
    SteadyAt depth count parser state := by
  obtain ⟨hmodes, hloops, hshrinks, hconsumes, hanswers⟩ := hother
  rw [← hsame] at hmodes hloops hshrinks hconsumes hanswers
  exact ⟨hmodes, hloops, hshrinks, hconsumes, hanswers⟩

section Primitives

/-- A parser that stays where it is. -/
theorem steadyAt_of_stays {parser : Parse α}
    (hmodes : (parser state).2.cursor = state.cursor)
    (hloops : (parser state).2.loopDepth = state.loopDepth)
    (hend : (parser state).1 ≠ .halted .exhausted) :
    SteadyAt depth 0 parser state where
  modes := by rw [hmodes]
  loopDepth := hloops
  shrinks := Nat.le_of_eq (by rw [hmodes])
  consumes := fun _ _ => Nat.le_of_eq (by rw [hmodes]; rfl)
  answers := fun _ => hend

theorem steady_pure (value : α) : Steady depth 0 (pure value : Parse α) :=
  fun _ => steadyAt_of_stays rfl rfl nofun

theorem steady_look (f : Cursor → α) : Steady depth 0 (look f) :=
  fun _ => steadyAt_of_stays rfl rfl nofun

theorem steady_read (f : ParserState → α) :
    Steady depth 0 (Step.read f : Parse α) :=
  fun _ => steadyAt_of_stays rfl rfl nofun

theorem steady_add (f : Program → α × Program) : Steady depth 0 (add f) :=
  fun _ => steadyAt_of_stays rfl rfl nofun

theorem steady_found (row : Option α) :
    Steady depth 0 (Step.found row : Parse α) := by
  intro state
  refine steadyAt_of_stays rfl rfl ?_
  cases row <;> nofun

/-- A parser that ends in an error has no result to have consumed too little
for. -/
theorem steadyAt_of_error {parser : Parse α} {error : ParseError}
    {after : ParserState} (hend : parser state = (.error error, after))
    (hmodes : after.cursor.modes = state.cursor.modes)
    (hloops : after.loopDepth = state.loopDepth)
    (hshrinks : after.cursor.rest.length ≤ state.cursor.rest.length) :
    SteadyAt depth count parser state where
  modes := by rw [hend]; exact hmodes
  loopDepth := by rw [hend]; exact hloops
  shrinks := by rw [hend]; exact hshrinks
  consumes := fun _ hok => by
    rw [hend] at hok
    cases hok
  answers := fun _ hhalt => by
    rw [hend] at hhalt
    cases hhalt

theorem steady_fault (cause : TokenKind → ParseFault) :
    Steady depth count (fault cause : Parse α) :=
  fun _ => steadyAt_of_error rfl rfl rfl (Nat.le_refl _)

theorem steady_fail (error : ParseError) :
    Steady depth count (Step.fail error : Parse α) :=
  fun _ => steadyAt_of_error rfl rfl rfl (Nat.le_refl _)

/-- Without depth nothing has to be answered. -/
theorem steady_halt (reason : Halt) (hdepth : depth = 0) :
    Steady depth count (Step.halt reason : Parse α) :=
  fun _ => ⟨rfl, rfl, Nat.le_refl _, nofun, fun hlt => by omega⟩

theorem steady_skipNewlines : Steady depth 0 skipNewlines :=
  fun state => ⟨rfl, rfl, state.cursor.length_skipNewlines_le,
    fun _ _ => state.cursor.length_skipNewlines_le, nofun⟩

theorem steady_advance : Steady depth 0 advance :=
  fun state => ⟨state.cursor.modes_advance, rfl,
    state.cursor.length_advance_le,
    fun _ _ => state.cursor.length_advance_le, nofun⟩

/-- Going over the token in front counts. -/
theorem steadyAt_advance (hyields : state.cursor.kind.Yields count) :
    SteadyAt depth count advance state :=
  { steady_advance state with
    consumes := fun _ _ => Cursor.length_advance_add_le hyields }

theorem steady_eat (kind : TokenKind) : Steady depth 0 (eat kind) := by
  intro state
  have hle : (state.cursor.eat kind).2.rest.length ≤
      state.cursor.rest.length := by
    unfold Cursor.eat
    split
    · exact state.cursor.length_advance_le
    · exact Nat.le_refl _
  exact ⟨state.cursor.modes_eat kind, rfl, hle, fun _ _ => hle, nofun⟩

/-- A step of the cursor is steady if it restores the modes and takes as many
tokens. -/
theorem steady_ofCursor {f : Cursor → Except ParseError α × Cursor}
    (hmodes : ∀ cursor, (f cursor).2.modes = cursor.modes)
    (hshrinks : ∀ cursor, (f cursor).2.rest.length ≤ cursor.rest.length)
    (hconsumes : ∀ cursor value after, f cursor = (.ok value, after) →
      after.rest.length + count ≤ cursor.rest.length) :
    Steady depth count (ofCursor f) := by
  intro state
  have hsame := hmodes state.cursor
  have hle := hshrinks state.cursor
  have hlt := hconsumes state.cursor
  rcases hrun : f state.cursor with ⟨error | value, after⟩
  · rw [hrun] at hsame hle
    have hend : ofCursor f state =
        (.error error, { state with cursor := after }) := by
      simp [ofCursor, hrun]
    exact steadyAt_of_error hend hsame rfl hle
  · rw [hrun] at hsame hle
    have hend : ofCursor f state =
        (.ok value, { state with cursor := after }) := by
      simp [ofCursor, hrun]
    exact
      { modes := by rw [hend]; exact hsame
        loopDepth := by rw [hend]
        shrinks := by rw [hend]; exact hle
        consumes := fun _ _ => by rw [hend]; exact hlt _ _ hrun
        answers := fun _ hhalt => by
          rw [hend] at hhalt
          cases hhalt }

/-- If it answers, the token is of the kind that is expected. -/
theorem steady_expect {kind : TokenKind} (hyields : kind.Yields count) :
    Steady depth count (expect kind) := by
  have hle : ∀ cursor : Cursor,
      (cursor.expect kind).2.rest.length ≤ cursor.rest.length := by
    intro cursor
    unfold Cursor.expect
    split
    · exact cursor.length_advance_le
    · exact Nat.le_refl _
  refine steady_ofCursor (fun cursor => cursor.modes_expect kind) hle ?_
  intro cursor token after hend
  unfold Cursor.expect at hend
  split at hend
  · next hcheck =>
    cases hend
    refine Cursor.length_advance_add_le ⟨hyields.le_one, fun heof => ?_⟩
    by_cases hkind : kind = .eof
    · exact hyields.ofEof hkind
    · exact absurd heof (cursor.kind_ne_of_check hcheck hkind)
  · cases hend

theorem steady_expectIdent : Steady depth 1 expectIdent := by
  refine steady_ofCursor Cursor.modes_expectIdent ?_ ?_
  · intro cursor
    unfold Cursor.expectIdent
    split
    · exact cursor.length_advance_le
    · exact Nat.le_refl _
  · intro cursor name after hend
    unfold Cursor.expectIdent at hend
    split at hend
    · next hname =>
      cases hend
      refine cursor.length_advance_lt ?_
      intro hkind
      simp [Cursor.ident?, hkind] at hname
    · cases hend

end Primitives

section Combinators

/-- What the first parser has consumed is taken off the depth and the count. -/
theorem SteadyAt.bind {first : Parse α} {next : α → Parse β} {n : Nat}
    (hfirst : SteadyAt depth n first state)
    (hnext : ∀ value after, first state = (.ok value, after) →
      after.cursor.rest.length + n ≤ state.cursor.rest.length →
      SteadyAt (depth - n) (count - n) (next value) after) :
    SteadyAt depth count (first >>= next) state := by
  have hanswers := hfirst.answers
  have hconsumes := hfirst.consumes
  have hmodes := hfirst.modes
  have hloops := hfirst.loopDepth
  have hshrinks := hfirst.shrinks
  rcases hrun : first state with ⟨outcome, middle⟩
  rw [hrun] at hanswers hconsumes hmodes hloops hshrinks
  cases outcome with
  | ok value =>
      have hused := hconsumes value rfl
      dsimp only at hmodes hloops hshrinks hused
      have hrest := hnext value middle hrun hused
      have hbind : (first >>= next) state = next value middle := by
        rw [bind_apply, hrun]
      exact
        { modes := by rw [hbind, hrest.modes, hmodes]
          loopDepth := by rw [hbind, hrest.loopDepth, hloops]
          shrinks := by
            rw [hbind]
            exact Nat.le_trans hrest.shrinks hshrinks
          consumes := fun other hend => by
            rw [hbind] at hend ⊢
            have hmore := hrest.consumes other hend
            omega
          answers := fun hlt => by
            rw [hbind]
            exact hrest.answers (by omega) }
  | error error =>
      have hbind : (first >>= next) state = (.error error, middle) := by
        rw [bind_apply, hrun]
      exact steadyAt_of_error hbind hmodes hloops hshrinks
  | halted reason =>
      have hbind : (first >>= next) state = (.halted reason, middle) := by
        rw [bind_apply, hrun]
      exact
        { modes := by rw [hbind]; exact hmodes
          loopDepth := by rw [hbind]; exact hloops
          shrinks := by rw [hbind]; exact hshrinks
          consumes := fun _ hok => by
            rw [hbind] at hok
            cases hok
          answers := by
            rw [hbind]
            intro hlt hend
            cases hend
            exact hanswers hlt rfl }

theorem Steady.bindAt {first : Parse α} {next : α → Parse β} {n : Nat}
    (hfirst : Steady depth n first)
    (hnext : ∀ value, Steady (depth - n) (count - n) (next value)) :
    SteadyAt depth count (first >>= next) state :=
  (hfirst state).bind fun value after _ _ => hnext value after

theorem Steady.bind {first : Parse α} {next : α → Parse β} {n : Nat}
    (hfirst : Steady depth n first)
    (hnext : ∀ value, Steady (depth - n) (count - n) (next value)) :
    Steady depth count (first >>= next) :=
  fun _ => hfirst.bindAt hnext

/-- What is read off the cursor is known from then on. -/
theorem steadyAt_look_bind {f : Cursor → α} {next : α → Parse β}
    (hnext : SteadyAt depth count (next (f state.cursor)) state) :
    SteadyAt depth count (look f >>= next) state :=
  hnext.congr rfl

/-- A loop that is allowed one round more than there are tokens never runs out
of rounds, if it consumes a token in each. -/
theorem steady_rounds_bind {loop : Nat → Parse α}
    (hloop : ∀ rounds, Steady (min depth rounds) count (loop rounds)) :
    Steady depth count (rounds >>= loop) := by
  intro state
  apply steadyAt_look_bind
  exact { hloop _ state with
    answers := fun hlt => (hloop _ state).answers (by omega) }

/-- A token that is eaten is consumed, if it is not the end of the file. -/
theorem steadyAt_eat_bind {kind : TokenKind} {next : Bool → Parse β}
    (hvisible : kind.isVisible = true)
    (htrue : Steady (depth - 1) (count - 1) (next true))
    (hfalse : SteadyAt depth count (next false) state) :
    SteadyAt depth count (eat kind >>= next) state := by
  have heat : eat kind state =
      (.ok (state.cursor.eat kind).1,
        { state with cursor := (state.cursor.eat kind).2 }) := rfl
  by_cases hcheck : state.cursor.check kind = true
  · have hadvance : SteadyAt depth 1 (eat kind) state := by
      refine { steady_eat kind state with consumes := ?_ }
      intro _ _
      rw [heat]
      simp only [Cursor.eat, hcheck, if_true]
      exact state.cursor.length_advance_lt
        (state.cursor.kind_ne_of_check hcheck (TokenKind.ne_eof hvisible))
    refine hadvance.bind ?_
    intro value after hrun _
    rw [heat] at hrun
    simp only [Cursor.eat, hcheck, if_true, Prod.mk.injEq, Outcome.ok.injEq]
      at hrun
    rw [← hrun.1]
    exact htrue after
  · refine hfalse.congr ?_
    rw [bind_apply, heat]
    simp [Cursor.eat, hcheck]

theorem SteadyAt.within (context : ParseContext) {parser : Parse α}
    (hparser : SteadyAt depth count parser state) :
    SteadyAt depth count (within context parser) state := by
  rcases hrun : parser state with ⟨outcome, after⟩
  cases outcome with
  | ok value =>
      exact hparser.congr (by simp only [Parse.within, mapError, hrun])
  | halted reason =>
      exact hparser.congr (by simp only [Parse.within, mapError, hrun])
  | error error =>
      have hend : Parse.within context parser state =
          (.error (error.within context), after) := by
        simp only [Parse.within, mapError, hrun]
      obtain ⟨hmodes, hloops, hshrinks, -, -⟩ := hparser
      rw [hrun] at hmodes hloops hshrinks
      exact steadyAt_of_error hend hmodes hloops hshrinks

/-- A parser in a region is steady where it is so inside. -/
theorem SteadyAt.inRegion {newlinesCount : Bool} {parser : Parse α}
    (hparser : SteadyAt depth count parser
      { state with cursor := state.cursor.push newlinesCount }) :
    SteadyAt depth count (inRegion newlinesCount parser) state := by
  have hle := state.cursor.length_push_le newlinesCount
  have hmodes := hparser.modes
  have hshrinks := hparser.shrinks
  dsimp only at hmodes hshrinks
  exact
    { modes := by
        change ((parser _).2.cursor.pop).modes = _
        rw [Cursor.modes_pop, hmodes, Cursor.modes_push, List.tail_cons]
      loopDepth := hparser.loopDepth
      shrinks := Nat.le_trans hshrinks hle
      consumes := fun value hend =>
        Nat.le_trans (hparser.consumes value hend) hle
      answers := fun hlt => hparser.answers (Nat.lt_of_le_of_lt hle hlt) }

/-- The token that a region is entered over is consumed. -/
theorem SteadyAt.enter {newlinesCount : Bool} {next : Token → Parse α}
    (hyields : state.cursor.kind.Yields count)
    (hnext : ∀ token, Steady depth 0 (next token)) :
    SteadyAt (depth + count) count
      (Parse.inRegion newlinesCount (advance >>= next)) state := by
  have hle := Cursor.length_enter_add_le newlinesCount hyields
  have hinner := hnext (state.cursor.push newlinesCount).current
    { state with cursor := (state.cursor.push newlinesCount).advance }
  have hmodes := hinner.modes
  have hshrinks := hinner.shrinks
  dsimp only at hmodes hshrinks
  exact
    { modes := by
        change ((next _ _).2.cursor.pop).modes = _
        rw [Cursor.modes_pop, hmodes, Cursor.modes_advance, Cursor.modes_push,
          List.tail_cons]
      loopDepth := hinner.loopDepth
      shrinks := Nat.le_trans hshrinks (by omega)
      consumes := fun _ _ =>
        Nat.le_trans (Nat.add_le_add_right hshrinks count) hle
      answers := fun hlt => hinner.answers (by dsimp only; omega) }

theorem Steady.inRegion {newlinesCount : Bool} {parser : Parse α}
    (hparser : Steady depth count parser) :
    Steady depth count (inRegion newlinesCount parser) :=
  fun _ => (hparser _).inRegion

/-- The loop is taken off the count again. -/
theorem Steady.inLoop {parser : Parse α}
    (hparser : Steady depth count parser) :
    Steady depth count (inLoop parser) := by
  intro state
  have hinner := hparser { state with loopDepth := state.loopDepth + 1 }
  exact
    { hinner with
      loopDepth := by
        change (parser _).2.loopDepth - 1 = state.loopDepth
        rw [hinner.loopDepth]
        rfl }

/-- The count of loops is put back as it was. -/
theorem Steady.inFunction {parser : Parse α}
    (hparser : Steady depth count parser) :
    Steady depth count (inFunction parser) := by
  intro state
  have hinner := hparser { state with loopDepth := 0 }
  exact { hinner with loopDepth := rfl }

theorem Steady.within (context : ParseContext) {parser : Parse α}
    (hparser : Steady depth count parser) :
    Steady depth count (within context parser) :=
  fun state => (hparser state).within context

theorem steady_expr (id : ExprId) : Steady depth 0 (expr id) :=
  (steady_read _).bind fun _ => steady_found _

theorem steady_spanOf (id : ExprId) : Steady depth 0 (spanOf id) :=
  (steady_expr id).bind fun _ => steady_pure _

end Combinators

end Parse

end ChainScript
