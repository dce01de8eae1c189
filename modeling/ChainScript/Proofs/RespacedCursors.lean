import ChainScript.Proofs.OpenDelimiters

/-
Two cursors in lists with the same significant tokens.

They are in step if they are in front of the same significant tokens and see
the same place of the token before.  Then they are at the same token, and a
step of both over a token, into a region or out of one keeps them in step.
-/

namespace ChainScript

/-- Whether line feeds count inside the open delimiters. -/
def modesOf (opened : List Mark) : List Bool :=
  opened.map fun mark => !mark.isBracket

namespace Cursor

/-- The cursors are in step, but may still have to pass over line feeds. -/
structure Near (opened : List Mark) (left right : Cursor) : Prop where
  modesLeft : left.modes = modesOf opened
  modesRight : right.modes = modesOf opened
  rests : significant opened left.rest = significant opened right.rest
  previous : left.previousSpan = right.previousSpan

/-- The cursors are in step. -/
structure InStep (opened : List Mark) (left right : Cursor) : Prop
    extends Near opened left right where
  settledLeft : bracketed opened = true → firstKind left.rest ≠ .newline
  settledRight : bracketed opened = true → firstKind right.rest ≠ .newline

/-- There are no more tokens inside parentheses or brackets. -/
def Lost (cursor : Cursor) : Prop :=
  cursor.rest = [] ∧ cursor.newlinesCount = false

variable {opened : List Mark} {cursor left right : Cursor}

theorem newlinesCount_of_modes (hmodes : cursor.modes = modesOf opened) :
    cursor.newlinesCount = !bracketed opened := by
  rw [newlinesCount, hmodes]
  cases opened <;> rfl

theorem rest_settle_eq :
    cursor.settle.rest =
      if cursor.newlinesCount then cursor.rest
      else cursor.rest.dropWhile Token.isNewline := by
  unfold settle
  split
  · rfl
  · simp [skipNewlines, passNewlines_snd]

theorem find?_passNewlines (passed rest : List Token) :
    (passNewlines passed rest).1.find? (fun token => !token.isNewline) =
      passed.find? fun token => !token.isNewline := by
  induction rest generalizing passed with
  | nil => rfl
  | cons token rest ih =>
      by_cases hline : token.isNewline = true
      · simp [passNewlines, hline, ih]
      · simp [passNewlines, hline]

/-- Line feeds that do not count are not seen looking back. -/
theorem previousSpan_settle : cursor.settle.previousSpan = cursor.previousSpan := by
  unfold settle
  split
  · rfl
  · next hcounts =>
    rw [Bool.not_eq_true] at hcounts
    have hsame : cursor.skipNewlines.newlinesCount = cursor.newlinesCount := rfl
    simp only [previousSpan, hsame, hcounts, Bool.false_or]
    rw [skipNewlines, find?_passNewlines]

theorem Near.settle (hnear : Near opened left right) :
    InStep opened left.settle right.settle := by
  have hleft := newlinesCount_of_modes hnear.modesLeft
  have hright := newlinesCount_of_modes hnear.modesRight
  refine ⟨⟨?_, ?_, ?_, ?_⟩, ?_, ?_⟩
  · rw [modes_settle, hnear.modesLeft]
  · rw [modes_settle, hnear.modesRight]
  · rw [rest_settle_eq, rest_settle_eq, hleft, hright]
    cases hbracketed : bracketed opened with
    | false => exact hnear.rests
    | true =>
        simp only [Bool.not_true, Bool.false_eq_true, if_false,
          significant_dropWhile hbracketed, hnear.rests]
  · rw [previousSpan_settle, previousSpan_settle, hnear.previous]
  · intro hbracketed
    rw [rest_settle_eq, hleft, hbracketed]
    exact firstKind_dropWhile_ne _
  · intro hbracketed
    rw [rest_settle_eq, hright, hbracketed]
    exact firstKind_dropWhile_ne _

theorem skipNewlines_eq_self (hfirst : firstKind cursor.rest ≠ .newline) :
    cursor.skipNewlines = cursor := by
  obtain ⟨passed, rest, modes⟩ := cursor
  cases rest with
  | nil => rfl
  | cons token rest =>
      have hline := mt isNewline_iff.mp hfirst
      simp [skipNewlines, passNewlines, hline]

theorem settle_eq_self (hmodes : cursor.modes = modesOf opened)
    (hsettled : bracketed opened = true → firstKind cursor.rest ≠ .newline) :
    cursor.settle = cursor := by
  unfold settle
  rw [newlinesCount_of_modes hmodes]
  cases hbracketed : bracketed opened with
  | false => rfl
  | true => exact skipNewlines_eq_self (hsettled hbracketed)

namespace InStep

variable (hstep : InStep opened left right)

include hstep

/-- Either there are no more tokens, or both cursors are at the same one. -/
theorem cases_rest :
    (left.rest = [] ∧ right.rest = []) ∨ ∃ token leftRest rightRest,
      left.rest = token :: leftRest ∧ right.rest = token :: rightRest ∧
        significant (openAfter opened token.kind) leftRest =
          significant (openAfter opened token.kind) rightRest :=
  significant_cases hstep.rests hstep.settledLeft hstep.settledRight

theorem kind_eq : left.kind = right.kind := by
  rcases hstep.cases_rest with ⟨hleft, hright⟩ | ⟨_, _, _, hleft, hright, -⟩
  · rw [kind, kind, hleft, hright]
  · rw [kind, kind, hleft, hright]
    rfl

theorem check_eq (kind : TokenKind) : left.check kind = right.check kind :=
  congrArg (·.sameVariant kind) hstep.kind_eq

theorem current_eq (hlive : ¬ left.Lost) : left.current = right.current := by
  rcases hstep.cases_rest with ⟨hleft, hright⟩ | ⟨_, _, _, hleft, hright, -⟩
  · have hcounts : left.newlinesCount = true := by
      cases hcounts : left.newlinesCount with
      | true => rfl
      | false => exact absurd ⟨hleft, hcounts⟩ hlive
    have hbracketed := newlinesCount_of_modes hstep.modesLeft
    have hother := newlinesCount_of_modes hstep.modesRight
    rw [← hbracketed, hcounts] at hother
    have hprevious := hstep.previous
    simp only [previousSpan, hcounts, hother, Bool.true_or] at hprevious
    simp only [current, hleft, hright]
    cases hpassed : left.passed <;> cases hpassedRight : right.passed <;>
      simp_all
  · rw [current, current, hleft, hright]

theorem span_eq (hlive : ¬ left.Lost) : left.span = right.span :=
  congrArg Token.span (hstep.current_eq hlive)

theorem ident?_eq : left.ident? = right.ident? := by
  rw [ident?, ident?, hstep.kind_eq]

theorem peekPastNewlines_eq :
    left.peekPastNewlines = right.peekPastNewlines := by
  have hfirst : ∀ tokens : List Token,
      firstKind (tokens.dropWhile Token.isNewline) =
        firstKind ((significant opened tokens).dropWhile Token.isNewline) := by
    intro tokens
    rw [dropWhile_significant]
    have hsettled := firstKind_dropWhile_ne tokens
    cases hrest : tokens.dropWhile Token.isNewline with
    | nil => rfl
    | cons token rest =>
        rw [hrest] at hsettled
        rw [significant_cons_of_settled rest fun _ => hsettled]
        rfl
  rw [peekPastNewlines, peekPastNewlines, hfirst left.rest, hstep.rests,
    ← hfirst]

end InStep

/-- Passing over the line feeds that say nothing leaves the same tokens. -/
theorem significant_visible (opened : List Mark) (tokens : List Token) :
    significant opened (if !bracketed opened then tokens
      else tokens.dropWhile Token.isNewline) = significant opened tokens := by
  cases hbracketed : bracketed opened with
  | false => rfl
  | true => exact significant_dropWhile hbracketed tokens

theorem firstKind_visible_ne (tokens : List Token)
    (hbracketed : bracketed opened = true) :
    firstKind (if !bracketed opened then tokens
      else tokens.dropWhile Token.isNewline) ≠ .newline := by
  rw [hbracketed]
  exact firstKind_dropWhile_ne tokens

/-- Looking ahead past plain tokens sees the same. -/
theorem peekIn_eq {leftRest rightRest : List Token} (n : Nat)
    (hrests : significant opened leftRest = significant opened rightRest)
    (hplain : ∀ k < n,
      (peekIn (!bracketed opened) k leftRest).isPlain = true) :
    peekIn (!bracketed opened) n leftRest =
      peekIn (!bracketed opened) n rightRest := by
  induction n generalizing leftRest rightRest with
  | zero =>
      rw [peekIn, peekIn, firstKind_significant, firstKind_significant, hrests]
  | succ n ih =>
      have hvisible := hrests
      rw [← significant_visible opened leftRest,
        ← significant_visible opened rightRest] at hvisible
      have hfirst := hplain 0 (Nat.succ_pos n)
      rw [peekIn] at hfirst
      rcases significant_cases hvisible (firstKind_visible_ne leftRest)
          (firstKind_visible_ne rightRest) with
        ⟨hleft, hright⟩ | ⟨token, lefts, rights, hleft, hright, hmore⟩
      · rw [peekIn, peekIn, hleft, hright]
      · have hstep : ∀ k, token.kind ≠ .eof →
            peekIn (!bracketed opened) (k + 1) leftRest =
              peekIn (!bracketed opened) k lefts := by
          intro k heof
          rw [peekIn, hleft]
          exact if_neg heof
        have hfirst : token.kind.isPlain = true := by
          rw [hleft] at hfirst
          exact hfirst
        rw [openAfter_plain hfirst] at hmore
        rw [peekIn, peekIn, hleft, hright]
        dsimp only
        by_cases heof : token.kind = .eof
        · rw [if_pos heof, if_pos heof]
        · rw [if_neg heof, if_neg heof]
          refine ih hmore fun k hk => ?_
          rw [← hstep k heof]
          exact hplain (k + 1) (Nat.succ_lt_succ hk)

/-- A settled cursor is at the token that looking ahead sees first. -/
theorem peek_zero (hmodes : cursor.modes = modesOf opened)
    (hsettled : bracketed opened = true → firstKind cursor.rest ≠ .newline) :
    cursor.peek 0 = cursor.kind := by
  rw [peek, peekIn, newlinesCount_of_modes hmodes, kind]
  cases hbracketed : bracketed opened with
  | false => rfl
  | true => exact congrArg firstKind (dropWhile_newlines (hsettled hbracketed))

/-- The token after the current one is the current one after a step. -/
theorem kind_advance (hmodes : cursor.modes = modesOf opened)
    (hsettled : bracketed opened = true → firstKind cursor.rest ≠ .newline)
    (hkind : cursor.kind ≠ .eof) : cursor.advance.kind = cursor.peek 1 := by
  obtain ⟨token, rest, hrest, heof⟩ := exists_cons_of_kind hkind
  have hcounts := newlinesCount_of_modes hmodes
  have hmoved : newlinesCount
      { cursor with passed := token :: cursor.passed, rest } =
        !bracketed opened := newlinesCount_of_modes hmodes
  have hvisible : (if !bracketed opened then token :: rest
      else (token :: rest).dropWhile Token.isNewline) = token :: rest := by
    cases hbracketed : bracketed opened with
    | false => rfl
    | true =>
        rw [← hrest]
        exact dropWhile_newlines (hsettled hbracketed)
  rw [advance, hrest]
  simp only [if_neg heof]
  rw [kind, rest_settle_eq, hmoved, peek, hcounts, hrest, peekIn, hvisible]
  simp only [if_neg heof, peekIn]

/-- A region where line feeds do not count can be entered in front of a visible
token or behind it. -/
theorem push_advance (hkind : cursor.kind.isVisible = true) :
    cursor.advance.push false = (cursor.push false).advance := by
  obtain ⟨token, rest, hrest, heof⟩ :=
    exists_cons_of_kind (TokenKind.ne_eof hkind)
  let moved : Cursor :=
    { passed := token :: cursor.passed, rest, modes := false :: cursor.modes }
  have hpush : cursor.push false =
      { cursor with modes := false :: cursor.modes } :=
    skipNewlines_eq_self (TokenKind.ne_newline hkind)
  have hinside : (cursor.push false).advance = moved.skipNewlines := by
    rw [hpush, advance, hrest]
    simp only [if_neg heof]
    rfl
  have houtside : cursor.advance = settle
      { cursor with passed := token :: cursor.passed, rest } := by
    rw [advance, hrest]
    simp only [if_neg heof]
  rw [hinside, houtside, settle]
  split
  · rfl
  · -- The line feeds behind the token have been passed over already.
    refine skipNewlines_eq_self ?_
    simp only [skipNewlines, passNewlines_snd]
    exact firstKind_dropWhile_ne _

namespace InStep

theorem peek_eq (hstep : InStep opened left right) (n : Nat)
    (hplain : ∀ k < n, (left.peek k).isPlain = true) :
    left.peek n = right.peek n := by
  unfold peek at hplain ⊢
  rw [newlinesCount_of_modes hstep.modesLeft] at hplain ⊢
  rw [newlinesCount_of_modes hstep.modesRight]
  exact peekIn_eq n hstep.rests hplain

theorem peek_one_eq (hstep : InStep opened left right)
    (hplain : left.kind.isPlain = true) : left.peek 1 = right.peek 1 := by
  refine hstep.peek_eq 1 fun k hk => ?_
  rw [Nat.lt_one_iff.mp hk, peek_zero hstep.modesLeft hstep.settledLeft]
  exact hplain

theorem kind_advance_eq (hstep : InStep opened left right)
    (hkind : left.kind ≠ .eof) : left.advance.kind = left.peek 1 :=
  kind_advance hstep.modesLeft hstep.settledLeft hkind

/-- Consuming the same token brings cursors in step. -/
theorem of_token {token : Token} {leftRest rightRest : List Token}
    (hmodesLeft : left.modes = modesOf opened)
    (hmodesRight : right.modes = modesOf opened)
    (hleft : left.rest = token :: leftRest)
    (hright : right.rest = token :: rightRest) (heof : token.kind ≠ .eof)
    (hrests : significant opened leftRest = significant opened rightRest)
    (hline : bracketed opened = true → token.kind ≠ .newline) :
    InStep opened left.advance right.advance := by
  have hmoved : ∀ {cursor : Cursor} {rest : List Token},
      cursor.rest = token :: rest → cursor.advance =
        settle { cursor with passed := token :: cursor.passed, rest } := by
    intro cursor rest hrest
    rw [Cursor.advance, hrest]
    simp only [if_neg heof]
  have hprevious : ∀ {cursor : Cursor} {rest : List Token},
      cursor.modes = modesOf opened →
      previousSpan { cursor with passed := token :: cursor.passed, rest } =
        token.span := by
    intro cursor rest hmodes
    have hcounts : newlinesCount
        { cursor with passed := token :: cursor.passed, rest } =
          !bracketed opened := newlinesCount_of_modes hmodes
    have hseen : (!bracketed opened || !token.isNewline) = true := by
      cases hbracketed : bracketed opened with
      | false => rfl
      | true => simpa using mt isNewline_iff.mp (hline hbracketed)
    rw [previousSpan, hcounts]
    simp only [List.find?_cons, hseen]
  rw [hmoved hleft, hmoved hright]
  exact Near.settle ⟨hmodesLeft, hmodesRight, hrests,
    (hprevious hmodesLeft).trans (hprevious hmodesRight).symm⟩

/-- A step from a plain token keeps the cursors in step. -/
theorem advance (hstep : InStep opened left right)
    (hplain : left.kind.isPlain = true) :
    InStep opened left.advance right.advance := by
  rcases hstep.cases_rest with
    ⟨hleft, hright⟩ | ⟨token, lefts, rights, hleft, hright, hrests⟩
  · have hstays : ∀ {cursor : Cursor}, cursor.rest = [] →
        cursor.advance = cursor.settle := by
      intro cursor hrest
      rw [Cursor.advance, hrest]
    rw [hstays hleft, hstays hright]
    exact hstep.toNear.settle
  · have hkind : token.kind.isPlain = true := by
      rw [kind, hleft] at hplain
      exact hplain
    rw [openAfter_plain hkind] at hrests
    by_cases heof : token.kind = .eof
    · have hstays : ∀ {cursor : Cursor} {rest : List Token},
          cursor.rest = token :: rest → cursor.advance = cursor.settle := by
        intro cursor rest hrest
        rw [Cursor.advance, hrest]
        simp only [if_pos heof]
      rw [hstays hleft, hstays hright]
      exact hstep.toNear.settle
    · refine of_token hstep.modesLeft hstep.modesRight hleft hright heof hrests
        fun hbracketed => ?_
      have hsettled := hstep.settledLeft hbracketed
      rwa [hleft] at hsettled

/-- Entering a region at a token that opens it. -/
theorem enter (hstep : InStep opened left right) {mark : Mark}
    (hkind : left.kind = .mark mark)
    (hopens : openAfter opened (.mark mark) = mark :: opened) :
    InStep (mark :: opened) (left.push (!mark.isBracket)).advance
      (right.push (!mark.isBracket)).advance := by
  have hpush : ∀ {cursor : Cursor}, cursor.modes = modesOf opened →
      cursor.kind = .mark mark → cursor.push (!mark.isBracket) =
        { cursor with modes := modesOf (mark :: opened) } := by
    intro cursor hmodes hcursor
    have hentered : { cursor with modes := (!mark.isBracket) :: cursor.modes } =
        { cursor with modes := modesOf (mark :: opened) } := by
      rw [hmodes]
      rfl
    rw [push, hentered]
    refine settle_eq_self rfl fun _ => ?_
    change cursor.kind ≠ .newline
    rw [hcursor]
    exact TokenKind.ne_newline rfl
  have hother : right.kind = .mark mark := hstep.kind_eq.symm.trans hkind
  rw [hpush hstep.modesLeft hkind, hpush hstep.modesRight hother]
  rcases hstep.cases_rest with
    ⟨hleft, -⟩ | ⟨token, lefts, rights, hleft, hright, hrests⟩
  · rw [kind, hleft] at hkind
    cases hkind
  · have htoken : token.kind = .mark mark := by
      rw [kind, hleft] at hkind
      exact hkind
    have hvisible : token.kind.isVisible = true := by
      rw [htoken]
      rfl
    rw [htoken, hopens] at hrests
    exact of_token rfl rfl hleft hright (TokenKind.ne_eof hvisible) hrests
      fun _ => TokenKind.ne_newline hvisible

/-- Leaving a region at a token that closes it. -/
theorem leave {mark : Mark} (hstep : InStep (mark :: opened) left right)
    (hcloses : openAfter (mark :: opened) left.kind = opened) :
    InStep opened left.pop.advance right.pop.advance := by
  have hmodes : ∀ {cursor : Cursor}, cursor.modes = modesOf (mark :: opened) →
      cursor.pop.modes = modesOf opened := by
    intro cursor hmodes
    rw [modes_pop, hmodes]
    rfl
  have hne : ∀ kind, openAfter (mark :: opened) kind = opened →
      kind.isPlain = false := by
    intro kind hkind
    cases hplain : kind.isPlain with
    | false => rfl
    | true =>
        rw [openAfter_plain hplain] at hkind
        exact absurd hkind (List.cons_ne_self _ _)
  rcases hstep.cases_rest with
    ⟨hleft, -⟩ | ⟨token, lefts, rights, hleft, hright, hrests⟩
  · rw [kind, hleft] at hcloses
    exact absurd (hne _ hcloses) (by decide)
  · rw [kind, hleft] at hcloses
    have hvisible := hne token.kind hcloses
    have hcloses : openAfter (mark :: opened) token.kind = opened := hcloses
    rw [hcloses] at hrests
    refine of_token (hmodes hstep.modesLeft) (hmodes hstep.modesRight) hleft
      hright ?_ hrests fun _ => ?_
    all_goals
      intro hkind
      rw [hkind] at hvisible
      cases hvisible

end InStep

theorem previousSpan_of_counts (hcounts : cursor.newlinesCount = true) :
    cursor.previousSpan =
      (cursor.passed.head?.map Token.span).getD .origin := by
  rw [previousSpan, hcounts]
  cases cursor.passed <;> rfl

/-- Where line feeds count, the same ones are passed over. -/
theorem head?_passNewlines (hcounts : bracketed opened = false)
    {passed others rest tokens : List Token}
    (hpassed : (passed.head?.map Token.span).getD .origin =
      (others.head?.map Token.span).getD .origin)
    (hrests : significant opened rest = significant opened tokens) :
    ((passNewlines passed rest).1.head?.map Token.span).getD .origin =
      ((passNewlines others tokens).1.head?.map Token.span).getD .origin := by
  induction rest generalizing passed others tokens with
  | nil =>
      cases tokens with
      | nil => exact hpassed
      | cons token tokens =>
          rw [significant_cons_of_counts tokens (by simp [hcounts])] at hrests
          cases hrests
  | cons token rest ih =>
      rw [significant_cons_of_counts rest (by simp [hcounts])] at hrests
      cases tokens with
      | nil => cases hrests
      | cons other tokens =>
          rw [significant_cons_of_counts tokens (by simp [hcounts])] at hrests
          obtain ⟨rfl, hrests⟩ := List.cons.inj hrests
          by_cases hline : token.isNewline = true
          · rw [openAfter_newline hline] at hrests
            simpa [passNewlines, hline] using ih (by rfl) hrests
          · simpa [passNewlines, hline] using hpassed

theorem InStep.skipNewlines (hstep : InStep opened left right) :
    InStep opened left.skipNewlines right.skipNewlines := by
  have hrest : ∀ cursor : Cursor, cursor.skipNewlines.rest =
      cursor.rest.dropWhile Token.isNewline := by
    intro cursor
    simp [Cursor.skipNewlines, passNewlines_snd]
  have hsettled : ∀ cursor : Cursor,
      firstKind cursor.skipNewlines.rest ≠ .newline := by
    intro cursor
    rw [hrest]
    exact firstKind_dropWhile_ne _
  refine ⟨⟨hstep.modesLeft, hstep.modesRight, ?_, ?_⟩,
    fun _ => hsettled left, fun _ => hsettled right⟩
  · rw [hrest, hrest, ← dropWhile_significant, ← dropWhile_significant,
      hstep.rests]
  · have hcountsLeft := newlinesCount_of_modes hstep.modesLeft
    have hcountsRight := newlinesCount_of_modes hstep.modesRight
    cases hbracketed : bracketed opened with
    | false =>
        rw [hbracketed] at hcountsLeft hcountsRight
        have hprevious := hstep.previous
        rw [previousSpan_of_counts hcountsLeft,
          previousSpan_of_counts hcountsRight] at hprevious
        have hleft : left.skipNewlines.newlinesCount = true := hcountsLeft
        have hright : right.skipNewlines.newlinesCount = true := hcountsRight
        rw [previousSpan_of_counts hleft, previousSpan_of_counts hright]
        exact head?_passNewlines hbracketed hprevious hstep.rests
    | true =>
        have hsame : ∀ cursor : Cursor, cursor.newlinesCount = false →
            cursor.skipNewlines = cursor.settle := by
          intro cursor hcounts
          simp [settle, hcounts]
        rw [hbracketed] at hcountsLeft hcountsRight
        rw [hsame left hcountsLeft, hsame right hcountsRight,
          previousSpan_settle, previousSpan_settle, hstep.previous]

end Cursor

end ChainScript
