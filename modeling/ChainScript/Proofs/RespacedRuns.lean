import ChainScript.Proofs.RespacedCursors
import ChainScript.Proofs.ThriftyGrammar

/-
Two runs of a parser on lists with the same significant tokens.

The runs stay in step: they look at the same tokens, see the same place of the
token before, and fill the same tables.  Only the numbers of rounds and the
depths that they are allowed are not the same.  A run that has come to the end
of the tokens inside parentheses or brackets is lost, since it cannot leave
them any more; nothing is said about what comes after that.
-/

namespace ChainScript

open Step

/-- The runs of the parser are in step. -/
structure ParserState.InStep (opened : List Mark) (left right : ParserState) :
    Prop where
  cursor : left.cursor.InStep opened right.cursor
  program : right.program = left.program
  loopDepth : right.loopDepth = left.loopDepth

/-- Behind a region that a delimiter opened, and in front of its close. -/
def ParserState.Leaving (mark : Mark) (opened : List Mark)
    (left right : ParserState) : Prop :=
  ∃ inner other : ParserState, inner.InStep (mark :: opened) other ∧
    left = { inner with cursor := inner.cursor.pop } ∧
    right = { other with cursor := other.cursor.pop }

namespace Parse

variable {α β : Type}

/-- Where the first parser answers, and is not lost, the second one gives the
same answer and stays in step, unless it gives up for want of depth. -/
def FollowsAt (opened : List Mark) (first second : Parse α)
    (left right : ParserState) : Prop :=
  ∀ value after, first left = (.ok value, after) → ¬ after.cursor.Lost →
    (second right).1 = .halted .exhausted ∨
      ∃ last, second right = (.ok value, last) ∧ after.InStep opened last

/-- The second parser follows the first one from wherever they are in step. -/
structure Follows (first second : Parse α) : Prop where
  steady : Steady 0 0 first
  follow : ∀ {opened left right}, left.InStep opened right →
    ¬ left.cursor.Lost → FollowsAt opened first second left right

variable {opened : List Mark} {left right : ParserState}
  {first second : Parse α} {next other : α → Parse β}

/-- Nobody gets out of a region without its close. -/
theorem SteadyAt.lost {parser : Parse α} {depth count : Nat}
    (hsteady : SteadyAt depth count parser left) (hlost : left.cursor.Lost) :
    (parser left).2.cursor.Lost := by
  obtain ⟨hrest, hcounts⟩ := hlost
  have hshrinks := hsteady.shrinks
  rw [hrest] at hshrinks
  refine ⟨List.length_eq_zero_iff.mp (Nat.le_zero.mp hshrinks), ?_⟩
  rw [Cursor.newlinesCount, hsteady.modes]
  exact hcounts

/-- What a run of two parsers that answers is made of. -/
theorem bind_eq_ok {value : β} {after : ParserState}
    (hrun : (first >>= next) left = (.ok value, after)) :
    ∃ middle between, first left = (.ok middle, between) ∧
      next middle between = (.ok value, after) := by
  rw [bind_apply] at hrun
  rcases hfirst : first left with ⟨outcome, between⟩
  rw [hfirst] at hrun
  cases outcome with
  | ok middle => exact ⟨middle, between, rfl, hrun⟩
  | error error => cases hrun
  | halted reason => cases hrun

theorem bind_exhausted (hrun : (first left).1 = .halted .exhausted) :
    ((first >>= next) left).1 = .halted .exhausted := by
  rw [bind_apply]
  rcases hfirst : first left with ⟨outcome, between⟩
  rw [hfirst] at hrun
  dsimp only at hrun
  subst hrun
  rfl

theorem bind_of_ok {middle : α} {between : ParserState}
    (hrun : first left = (.ok middle, between)) :
    (first >>= next) left = next middle between := by
  rw [bind_apply, hrun]

section Bind

theorem FollowsAt.bindAt (hfirst : FollowsAt opened first second left right)
    (hsteady : ∀ value, Steady 0 0 (next value))
    (hnext : ∀ value after last, first left = (.ok value, after) →
      after.InStep opened last → ¬ after.cursor.Lost →
      FollowsAt opened (next value) (other value) after last) :
    FollowsAt opened (first >>= next) (second >>= other) left right := by
  intro value after hrun hlive
  obtain ⟨middle, between, hmiddle, hrest⟩ := bind_eq_ok hrun
  have hbetween : ¬ between.cursor.Lost := by
    intro hlost
    have hafter := (hsteady middle between).lost hlost
    rw [hrest] at hafter
    exact hlive hafter
  rcases hfirst middle between hmiddle hbetween with
    hexhausted | ⟨later, hlater, hstep⟩
  · exact .inl (bind_exhausted hexhausted)
  · rw [bind_of_ok hlater]
    exact hnext middle between later hmiddle hstep hbetween value after hrest
      hlive

theorem FollowsAt.bind (hfirst : FollowsAt opened first second left right)
    (hnext : ∀ value, Follows (next value) (other value)) :
    FollowsAt opened (first >>= next) (second >>= other) left right :=
  hfirst.bindAt (fun value => (hnext value).steady)
    fun value _ _ _ hstep hlive => (hnext value).follow hstep hlive

theorem Follows.bind (hfirst : Follows first second)
    (hnext : ∀ value, Follows (next value) (other value)) :
    Follows (first >>= next) (second >>= other) where
  steady := hfirst.steady.bind fun value => (hnext value).steady
  follow := fun hstep hlive => (hfirst.follow hstep hlive).bind hnext

/-- What both cursors show alike is known from then on. -/
theorem FollowsAt.look {f : Cursor → α} (hsame : f left.cursor = f right.cursor)
    (hnext : FollowsAt opened (next (f left.cursor)) (other (f left.cursor))
      left right) :
    FollowsAt opened (look f >>= next) (look f >>= other) left right := by
  intro value after hrun hlive
  have hother : (Parse.look f >>= other) right = other (f right.cursor) right :=
    rfl
  rw [hother, ← hsame]
  exact hnext value after hrun hlive

/-- What the cursors show may be different where it makes no difference. -/
theorem FollowsAt.lookEach {f : Cursor → α}
    (hnext : FollowsAt opened (next (f left.cursor)) (other (f right.cursor))
      left right) :
    FollowsAt opened (Parse.look f >>= next) (Parse.look f >>= other) left
      right :=
  hnext

theorem follows_of {depth count : Nat} (hsteady : Steady depth count first)
    (hfollow : ∀ opened left right, left.InStep opened right →
      ¬ left.cursor.Lost → FollowsAt opened first second left right) :
    Follows first second where
  steady := hsteady.mono (Nat.zero_le _) (Nat.zero_le _)
  follow := hfollow _ _ _

end Bind

section Primitives

theorem follows_pure (value : α) :
    Follows (pure value : Parse α) (pure value) where
  steady := steady_pure value
  follow := by
    rintro _ _ _ hstep _ value after ⟨⟩ _
    exact .inr ⟨_, rfl, hstep⟩

theorem follows_look {f : Cursor → α}
    (hsame : ∀ {opened : List Mark} {left right : Cursor},
      left.InStep opened right → ¬ left.Lost → f left = f right) :
    Follows (look f) (look f) where
  steady := steady_look f
  follow := by
    rintro _ left right hstep hlive value after ⟨⟩ _
    have hend : look f right = (.ok (f right.cursor), right) := rfl
    refine .inr ⟨right, ?_, hstep⟩
    rw [hend, ← hsame hstep.cursor hlive]

theorem follows_read {f : ParserState → α}
    (hsame : ∀ left right : ParserState, right.program = left.program →
      right.loopDepth = left.loopDepth → f right = f left) :
    Follows (Step.read f : Parse α) (Step.read f) where
  steady := steady_read f
  follow := by
    rintro _ left right hstep hlive value after ⟨⟩ _
    refine .inr ⟨right, ?_, hstep⟩
    rw [read_apply, hsame left right hstep.program hstep.loopDepth]

theorem follows_found (row : Option α) :
    Follows (Step.found row : Parse α) (Step.found row) where
  steady := steady_found row
  follow := by
    intro _ left right hstep _ value after hrun _
    cases row with
    | none => cases hrun
    | some found =>
        cases hrun
        exact .inr ⟨right, rfl, hstep⟩

theorem followsAt_fault (cause : TokenKind → ParseFault) :
    FollowsAt opened (fault cause : Parse α) second left right := by
  rintro _ _ ⟨⟩

theorem follows_fault (cause : TokenKind → ParseFault) (second : Parse α) :
    Follows (fault cause : Parse α) second where
  steady := steady_fault cause
  follow := fun _ _ => followsAt_fault cause

theorem follows_fail (error : ParseError) (second : Parse α) :
    Follows (Step.fail error : Parse α) second where
  steady := steady_fail error
  follow := fun _ _ _ _ hrun => nomatch hrun

theorem follows_halt (reason : Halt) (second : Parse α) :
    Follows (Step.halt reason : Parse α) second where
  steady := steady_halt reason rfl
  follow := fun _ _ _ _ hrun => nomatch hrun

/-- Whatever has no depth left follows. -/
theorem follows_exhausted (hsteady : Steady 0 0 first) :
    Follows first (Step.halt .exhausted) where
  steady := hsteady
  follow := fun _ _ _ _ _ _ => .inl rfl

/-- Only what the parsers do where they start counts. -/
theorem FollowsAt.congr {before after : Parse α}
    (hfollows : FollowsAt opened before after left right)
    (hfirst : first left = before left) (hsecond : second right = after right) :
    FollowsAt opened first second left right := by
  intro value last hrun hlive
  rw [hfirst] at hrun
  rw [hsecond]
  exact hfollows value last hrun hlive

theorem follows_add (f : Program → α × Program) : Follows (add f) (add f) where
  steady := steady_add f
  follow := by
    rintro _ left right hstep hlive value after ⟨⟩ _
    refine .inr ⟨{ right with program := (f left.program).2 }, ?_,
      ⟨hstep.cursor, rfl, hstep.loopDepth⟩⟩
    simp only [add, update_apply, hstep.program]

/-- A step from a plain token. -/
theorem followsAt_advance (hstep : left.InStep opened right)
    (hlive : ¬ left.cursor.Lost) (hplain : left.cursor.kind.isPlain = true) :
    FollowsAt opened advance advance left right := by
  rintro value after ⟨⟩ _
  refine .inr ⟨{ right with cursor := right.cursor.advance }, ?_,
    ⟨hstep.cursor.advance hplain, hstep.program, hstep.loopDepth⟩⟩
  simp only [advance, update_apply, hstep.cursor.current_eq hlive]

/-- What a cursor that is in step does with a plain token. -/
theorem follows_ofCursor {f : Cursor → Except ParseError α × Cursor}
    (hsteady : Steady 0 0 (ofCursor f))
    (hsame : ∀ {opened : List Mark} {left right : Cursor},
      left.InStep opened right → ¬ left.Lost →
      ∀ value after, f left = (.ok value, after) →
        ∃ last, f right = (.ok value, last) ∧ after.InStep opened last) :
    Follows (ofCursor f) (ofCursor f) where
  steady := hsteady
  follow := by
    intro opened left right hstep hlive value after hrun _
    unfold ofCursor at hrun
    rcases hleft : f left.cursor with ⟨error | found, cursor⟩
    · rw [hleft] at hrun
      cases hrun
    · rw [hleft] at hrun
      cases hrun
      obtain ⟨last, hright, hafter⟩ := hsame hstep.cursor hlive _ _ hleft
      refine .inr ⟨{ right with cursor := last }, ?_,
        ⟨hafter, hstep.program, hstep.loopDepth⟩⟩
      simp only [ofCursor, hright]

theorem isPlain_of_sameVariant {kind wanted : TokenKind}
    (hsame : kind.sameVariant wanted = true) (hplain : wanted.isPlain = true) :
    kind.isPlain = true := by
  cases kind with
  | mark symbol =>
      cases wanted with
      | mark other =>
          rwa [(TokenKind.sameVariant_mark_iff _ _).mp hsame]
      | _ => simp [TokenKind.sameVariant] at hsame
  | _ => rfl

theorem follows_expect {kind : TokenKind} (hplain : kind.isPlain = true) :
    Follows (expect kind) (expect kind) := by
  refine follows_ofCursor (steady_expect (.zero kind)) ?_
  intro opened left right hstep hlive value after hrun
  unfold Cursor.expect at hrun ⊢
  rw [← hstep.check_eq, ← hstep.current_eq hlive]
  split at hrun
  · next hcheck =>
    cases hrun
    rw [if_pos hcheck]
    exact ⟨_, rfl, hstep.advance (isPlain_of_sameVariant hcheck hplain)⟩
  · cases hrun

theorem follows_expectIdent : Follows expectIdent expectIdent := by
  refine follows_ofCursor (steady_expectIdent.mono (Nat.le_refl 0)
    (Nat.zero_le 1)) ?_
  intro opened left right hstep hlive value after hrun
  have hname : right.ident? = left.ident? := by
    rw [Cursor.ident?, Cursor.ident?, hstep.kind_eq]
  unfold Cursor.expectIdent at hrun ⊢
  rw [hname]
  split at hrun
  · next name hident =>
    cases hrun
    have hplain : left.kind.isPlain = true := by
      unfold Cursor.ident? at hident
      split at hident
      · next hkind => rw [hkind]; rfl
      · cases hident
    exact ⟨_, rfl, hstep.advance hplain⟩
  · cases hrun

theorem follows_eat {kind : TokenKind} (hplain : kind.isPlain = true) :
    Follows (eat kind) (eat kind) where
  steady := steady_eat kind
  follow := by
    rintro opened left right hstep hlive value after ⟨⟩ _
    by_cases hcheck : left.cursor.check kind = true
    · have hother := hstep.cursor.check_eq kind ▸ hcheck
      refine .inr ⟨{ right with cursor := right.cursor.advance }, ?_, ?_⟩
      · simp only [eat, update_apply, Cursor.eat, hcheck, hother, if_true]
      · simp only [Cursor.eat, hcheck, if_true]
        exact ⟨hstep.cursor.advance (isPlain_of_sameVariant hcheck hplain),
          hstep.program, hstep.loopDepth⟩
    · have hother := hstep.cursor.check_eq kind ▸ hcheck
      refine .inr ⟨right, ?_, ?_⟩
      · simp [eat, update_apply, Cursor.eat, hcheck, hother]
      · simp only [Cursor.eat, hcheck]
        exact ⟨hstep.cursor, hstep.program, hstep.loopDepth⟩

/-- Where nothing is eaten, the state is known. -/
theorem FollowsAt.eat {kind : TokenKind} {next other : Bool → Parse β}
    (hplain : kind.isPlain = true) (hstep : left.InStep opened right)
    (htrue : Follows (next true) (other true))
    (hfalse : FollowsAt opened (next false) (other false) left right) :
    FollowsAt opened (eat kind >>= next) (eat kind >>= other) left right := by
  have heat : ∀ state : ParserState, Parse.eat kind state =
      (.ok (state.cursor.eat kind).1,
        { state with cursor := (state.cursor.eat kind).2 }) := fun _ => rfl
  by_cases hcheck : left.cursor.check kind = true
  · have hother := hstep.cursor.check_eq kind ▸ hcheck
    have hpassed : ∀ {state : ParserState} {rest : Bool → Parse β},
        state.cursor.check kind = true → (Parse.eat kind >>= rest) state =
          rest true { state with cursor := state.cursor.advance } := by
      intro state rest hstate
      rw [bind_apply, heat]
      simp only [Cursor.eat, hstate, if_true]
    intro value after hrun hafter
    rw [hpassed hcheck] at hrun
    rw [hpassed hother]
    have hmoved : ParserState.InStep opened
        { left with cursor := left.cursor.advance }
        { right with cursor := right.cursor.advance } :=
      ⟨hstep.cursor.advance (isPlain_of_sameVariant hcheck hplain),
        hstep.program, hstep.loopDepth⟩
    refine htrue.follow hmoved ?_ value after hrun hafter
    intro hlost
    have hend := (htrue.steady _).lost hlost
    rw [hrun] at hend
    exact hafter hend
  · have hother := hstep.cursor.check_eq kind ▸ hcheck
    have hstays : ∀ {state : ParserState} {rest : Bool → Parse β},
        ¬ state.cursor.check kind = true →
          (Parse.eat kind >>= rest) state = rest false state := by
      intro state rest hstate
      rw [bind_apply, heat]
      simp [Cursor.eat, hstate]
    intro value after hrun hafter
    rw [hstays hcheck] at hrun
    rw [hstays hother]
    exact hfalse value after hrun hafter

end Primitives

section Combinators

theorem FollowsAt.within (context : ParseContext)
    (hparser : FollowsAt opened first second left right) :
    FollowsAt opened (within context first) (within context second) left
      right := by
  intro value after hrun hlive
  have hleft : first left = (.ok value, after) := by
    unfold Parse.within mapError at hrun
    rcases hfirst : first left with ⟨outcome, between⟩
    rw [hfirst] at hrun
    cases outcome <;> first | exact hrun | cases hrun
  rcases hparser value after hleft hlive with hexhausted | ⟨last, hlast, hstep⟩
  · refine .inl ?_
    unfold Parse.within mapError
    rcases hsecond : second right with ⟨outcome, between⟩
    rw [hsecond] at hexhausted
    dsimp only at hexhausted
    subst hexhausted
    rfl
  · refine .inr ⟨last, ?_, hstep⟩
    simp only [Parse.within, mapError, hlast]

theorem Follows.within (context : ParseContext)
    (hparser : Follows first second) :
    Follows (within context first) (within context second) where
  steady := hparser.steady.within context
  follow := fun hstep hlive => (hparser.follow hstep hlive).within context

/-- A parser between changes of the state that leave the cursor alone. -/
private theorem FollowsAt.between {wrapped wrapped' : Parse α}
    (enter : ParserState → ParserState)
    (leave : ParserState → ParserState → ParserState)
    (hleft : wrapped left =
      ((first (enter left)).1, leave left (first (enter left)).2))
    (hright : wrapped' right =
      ((second (enter right)).1, leave right (second (enter right)).2))
    (hcursor : ∀ after, (leave left after).cursor = after.cursor)
    (hleave : ∀ after last : ParserState, after.InStep opened last →
      (leave left after).InStep opened (leave right last))
    (hinner : FollowsAt opened first second (enter left) (enter right)) :
    FollowsAt opened wrapped wrapped' left right := by
  intro value after hrun hlive
  rcases hfirst : first (enter left) with ⟨outcome, inner⟩
  rw [hleft, hfirst] at hrun
  cases hrun
  rw [hcursor] at hlive
  rcases hinner value inner hfirst hlive with hexhausted | ⟨last, hlast, hstep⟩
  · exact .inl (by rw [hright]; exact hexhausted)
  · refine .inr ⟨leave right last, ?_, hleave inner last hstep⟩
    rw [hright, hlast]

theorem Follows.inLoop (hparser : Follows first second) :
    Follows (inLoop first) (inLoop second) where
  steady := hparser.steady.inLoop
  follow := by
    intro opened left right hstep hlive
    have henter : ParserState.InStep opened
        { left with loopDepth := left.loopDepth + 1 }
        { right with loopDepth := right.loopDepth + 1 } :=
      ⟨hstep.cursor, hstep.program, congrArg (· + 1) hstep.loopDepth⟩
    refine FollowsAt.between
      (fun state => { state with loopDepth := state.loopDepth + 1 })
      (fun _ after => { after with loopDepth := after.loopDepth - 1 })
      rfl rfl (fun _ => rfl) ?_ (hparser.follow henter hlive)
    exact fun _ _ hafter =>
      ⟨hafter.cursor, hafter.program, congrArg (· - 1) hafter.loopDepth⟩

theorem Follows.inFunction (hparser : Follows first second) :
    Follows (inFunction first) (inFunction second) where
  steady := hparser.steady.inFunction
  follow := by
    intro opened left right hstep hlive
    have henter : ParserState.InStep opened { left with loopDepth := 0 }
        { right with loopDepth := 0 } :=
      ⟨hstep.cursor, hstep.program, rfl⟩
    refine FollowsAt.between (fun state => { state with loopDepth := 0 })
      (fun state after => { after with loopDepth := state.loopDepth })
      rfl rfl (fun _ => rfl) ?_ (hparser.follow henter hlive)
    exact fun _ _ hafter => ⟨hafter.cursor, hafter.program, hstep.loopDepth⟩

/-- Loops that follow each other do so whatever rounds they are allowed. -/
theorem follows_rounds {loop loop' : Nat → Parse α}
    (hloop : ∀ rounds others, Follows (loop rounds) (loop' others)) :
    Follows (rounds >>= loop) (rounds >>= loop') where
  steady := steady_rounds_bind fun n =>
    (hloop n 0).steady.mono (by omega) (Nat.le_refl 0)
  follow := by
    intro opened left right hstep hlive
    exact (hloop _ _).follow hstep hlive

theorem follows_skipNewlines : Follows skipNewlines skipNewlines where
  steady := steady_skipNewlines
  follow := by
    rintro _ left right hstep _ value after ⟨⟩ _
    exact .inr ⟨_, rfl, hstep.cursor.skipNewlines, hstep.program,
      hstep.loopDepth⟩

end Combinators

section Regions

variable {mark : Mark}

theorem inRegion_apply (newlinesCount : Bool) (parser : Parse α)
    (state : ParserState) :
    inRegion newlinesCount parser state =
      ((parser { state with cursor := state.cursor.push newlinesCount }).1,
        { (parser { state with cursor := state.cursor.push newlinesCount }).2
            with
          cursor := (parser { state with
            cursor := state.cursor.push newlinesCount }).2.cursor.pop }) :=
  rfl

/-- Where a delimiter opens a region, the parsers of the region follow each
other, and what comes after it may start from its end.  Nothing answers there
without tokens. -/
theorem followsAt_region (hstep : left.InStep opened right)
    (hkind : left.cursor.kind = .mark mark)
    (hopens : openAfter opened (.mark mark) = mark :: opened)
    {newlinesCount : Bool} (hmode : newlinesCount = !mark.isBracket)
    (hbody : Follows first second)
    (hnext : ∀ value after last, after.Leaving mark opened last →
      FollowsAt opened (next value) (other value) after last)
    (hends : ∀ value state, state.cursor.rest = [] →
      ∀ result after, next value state ≠ (.ok result, after)) :
    FollowsAt opened
      (inRegion newlinesCount (do let _ ← advance; first) >>= next)
      (inRegion newlinesCount (do let _ ← advance; second) >>= other)
      left right := by
  intro value after hrun hafter
  obtain ⟨middle, between, hmiddle, hrest⟩ := bind_eq_ok hrun
  subst hmode
  let enter : ParserState → ParserState := fun state =>
    { state with cursor := state.cursor.push (!mark.isBracket) }
  let inside : ParserState → ParserState := fun state =>
    { enter state with cursor := (enter state).cursor.advance }
  have hinside : (inside left).InStep (mark :: opened) (inside right) :=
    ⟨hstep.cursor.enter hkind hopens, hstep.program, hstep.loopDepth⟩
  have hregion : ∀ (parser : Parse α) state,
      inRegion (!mark.isBracket) (do let _ ← advance; parser) state =
        ((parser (inside state)).1,
          { (parser (inside state)).2 with
            cursor := (parser (inside state)).2.cursor.pop }) :=
    fun _ _ => rfl
  rcases hfirst : first (inside left) with ⟨outcome, inner⟩
  rw [hregion, hfirst] at hmiddle
  cases hmiddle
  have hinner : ¬ inner.cursor.Lost :=
    fun hlost => hends middle { inner with cursor := inner.cursor.pop } hlost.1
      value after hrest
  have hliveInside : ¬ (inside left).cursor.Lost := by
    intro hlost
    have hafterBody := (hbody.steady (inside left)).lost hlost
    rw [hfirst] at hafterBody
    exact hinner hafterBody
  rcases hbody.follow hinside hliveInside middle inner hfirst hinner with
    hexhausted | ⟨last, hlast, hleaving⟩
  · refine .inl (bind_exhausted ?_)
    rw [hregion]
    exact hexhausted
  · have hsecond := hregion second right
    rw [hlast] at hsecond
    rw [bind_of_ok hsecond]
    exact hnext middle _ _ ⟨inner, last, hleaving, rfl, rfl⟩ value after hrest
      hafter

/-- Where line feeds do not count, it makes no difference whether the opener is
consumed inside. -/
theorem expect_inRegion {state : ParserState} (body : Parse α)
    (next : α → Parse β) (hkind : state.cursor.kind = .mark mark) :
    (do let _ ← expect (.mark mark); inRegion false body >>= next) state =
      (inRegion false (do let _ ← advance; body) >>= next) state := by
  have hcheck : state.cursor.check (.mark mark) = true :=
    (TokenKind.sameVariant_mark_iff _ _).mpr hkind
  have hexpect : expect (.mark mark) state =
      (.ok state.cursor.current,
        { state with cursor := state.cursor.advance }) := by
    simp only [expect, ofCursor, Cursor.expect, hcheck, if_true]
  have hpush : state.cursor.advance.push false =
      (state.cursor.push false).advance :=
    Cursor.push_advance (by rw [hkind]; rfl)
  have hsame : inRegion false body
      { state with cursor := state.cursor.advance } =
        inRegion false (do let _ ← advance; body) state := by
    rw [inRegion_apply, inRegion_apply, hpush]
    rfl
  rw [bind_of_ok hexpect, bind_apply, bind_apply, hsame]

/-- Behind a region both runs are at the same token. -/
theorem leaving_kind_eq (hleaving : left.Leaving mark opened right) :
    left.cursor.kind = right.cursor.kind := by
  obtain ⟨inner, last, hstep, rfl, rfl⟩ := hleaving
  exact hstep.cursor.kind_eq

/-- The step over the token that closes a region. -/
theorem followsAt_leave (hleaving : left.Leaving mark opened right)
    (hcloses : openAfter (mark :: opened) left.cursor.kind = opened) :
    FollowsAt opened advance advance left right := by
  obtain ⟨inner, last, hstep, rfl, rfl⟩ := hleaving
  rintro value after ⟨⟩ _
  have hinner : ¬ inner.cursor.Lost := by
    rintro ⟨hrest, -⟩
    have hkind : Cursor.kind inner.cursor.pop = .eof := by
      rw [Cursor.kind, Cursor.pop, hrest]
      rfl
    rw [hkind] at hcloses
    exact List.cons_ne_self _ _ hcloses
  refine .inr ⟨{ last with cursor := last.cursor.pop.advance }, ?_,
    ⟨hstep.cursor.leave hcloses, hstep.program, hstep.loopDepth⟩⟩
  have hcurrent : inner.cursor.pop.current = last.cursor.pop.current :=
    hstep.cursor.current_eq hinner
  simp only [advance, update_apply, hcurrent]

/-- The close that has to come. -/
theorem followsAt_expectClose {close : Mark}
    (hleaving : left.Leaving mark opened right)
    (hcloses : openAfter (mark :: opened) (.mark close) = opened) :
    FollowsAt opened (expect (.mark close)) (expect (.mark close)) left
      right := by
  intro value after hrun hlive
  have hsame := leaving_kind_eq hleaving
  by_cases hcheck : left.cursor.check (.mark close) = true
  · have hkind : left.cursor.kind = .mark close :=
      (TokenKind.sameVariant_mark_iff _ _).mp hcheck
    have hother : right.cursor.check (.mark close) = true := by
      rw [Cursor.check, ← hsame]
      exact hcheck
    have hexpect : ∀ state : ParserState,
        state.cursor.check (.mark close) = true →
          expect (.mark close) state = advance state := by
      intro state hstate
      simp only [expect, ofCursor, Cursor.expect, hstate, if_true]
      rfl
    rw [hexpect left hcheck] at hrun
    rw [hexpect right hother]
    exact followsAt_leave hleaving (by rw [hkind]; exact hcloses) value after
      hrun hlive
  · simp [expect, ofCursor, Cursor.expect, hcheck] at hrun

/-- The close that is looked for. -/
theorem followsAt_checkClose {close : Mark} {next other : Token → Parse β}
    {cause : TokenKind → ParseFault} (hleaving : left.Leaving mark opened right)
    (hcloses : openAfter (mark :: opened) (.mark close) = opened)
    (hnext : ∀ token, Follows (next token) (other token)) :
    FollowsAt opened
      (do if ← check (.mark close) then next (← advance) else fault cause)
      (do if ← check (.mark close) then other (← advance) else fault cause)
      left right := by
  have hsame : left.cursor.check (.mark close) =
      right.cursor.check (.mark close) := by
    rw [Cursor.check, Cursor.check, leaving_kind_eq hleaving]
  refine FollowsAt.look hsame ?_
  split
  · next hcheck =>
    have hclose := (TokenKind.sameVariant_mark_iff _ _).mp hcheck
    exact (followsAt_leave hleaving (by rw [hclose]; exact hcloses)).bind hnext
  · exact followsAt_fault cause

/-- No close comes where there are no tokens. -/
theorem check_eq_false {kind : TokenKind} (hvisible : kind.isVisible = true)
    {state : ParserState} (hrest : state.cursor.rest = []) :
    state.cursor.check kind = false := by
  rw [Bool.eq_false_iff]
  intro hcheck
  refine Cursor.kind_ne_of_check _ hcheck (TokenKind.ne_eof hvisible) ?_
  rw [Cursor.kind, hrest]
  rfl

theorem expect_bind_ne_ok {kind : TokenKind} {next : Token → Parse β}
    (hvisible : kind.isVisible = true) {state : ParserState}
    (hrest : state.cursor.rest = []) (result : β) (after : ParserState) :
    (expect kind >>= next) state ≠ (.ok result, after) := by
  intro hrun
  obtain ⟨token, between, hexpect, -⟩ := bind_eq_ok hrun
  simp [expect, ofCursor, Cursor.expect, check_eq_false hvisible hrest]
    at hexpect

theorem check_bind_ne_ok {kind : TokenKind} {next : Parse β}
    {cause : TokenKind → ParseFault} (hvisible : kind.isVisible = true)
    {state : ParserState} (hrest : state.cursor.rest = []) (result : β)
    (after : ParserState) :
    (do if ← check kind then next else fault cause) state ≠
      (.ok result, after) := by
  have hcheck : (do if ← check kind then next else fault cause : Parse β) state =
      (if state.cursor.check kind then next else fault cause) state := rfl
  rw [hcheck, check_eq_false hvisible hrest]
  nofun

end Regions

end Parse

end ChainScript
