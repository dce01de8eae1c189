import ChainScript.Proofs.ConsumedStatements
import ChainScript.Proofs.ParsedPhrases

/-
The statements, blocks and scripts of the uniform dialect are read by the rules
of the parser.

What comes after a statement must not be a further branch of it.  A statement
that starts like an expression is told apart by the tokens after the first.
-/

namespace ChainScript

open Step Parse

namespace Cursor

theorem peekIn_dropNewlines (n : Nat) (tokens : List Token) :
    peekIn false n (tokens.dropWhile Token.isNewline) = peekIn false n tokens := by
  have hsame : (tokens.dropWhile Token.isNewline).dropWhile Token.isNewline =
      tokens.dropWhile Token.isNewline :=
    dropWhile_newlines (firstKind_dropWhile_ne tokens)
  cases n <;> simp [peekIn, hsame]

/-- Looking further ahead over a plain token. -/
theorem Sees.peek_succ {opened : List Mark} {kind : TokenKind}
    {more : List TokenKind} {cursor : Cursor}
    (hsees : cursor.Sees opened (kind :: more)) (heof : kind ≠ .eof) (n : Nat) :
    cursor.peek (n + 1) = cursor.advance.peek n := by
  obtain ⟨token, rest, hrest, rfl, -⟩ := hsees.exists_cons
  have hcounts := newlinesCount_of_modes hsees.modes
  have hsettled := hsees.settled
  have hadvance : cursor.advance =
      settle { cursor with passed := token :: cursor.passed, rest } := by
    rw [Cursor.advance, hrest]
    simp only [if_neg heof]
  have hafter : cursor.advance.rest =
      if cursor.newlinesCount then rest else rest.dropWhile Token.isNewline := by
    rw [hadvance, rest_settle_eq]
    rfl
  have hmodes : cursor.advance.newlinesCount = cursor.newlinesCount := by
    rw [newlinesCount, modes_advance, newlinesCount]
  rw [peek, peek, hmodes, hafter, hrest, hcounts]
  cases hbracketed : bracketed opened with
  | false => simp [peekIn, heof]
  | true =>
      rw [hrest] at hsettled
      have hvisible := dropWhile_newlines (hsettled hbracketed)
      simp only [Bool.not_true, Bool.false_eq_true, if_false, peekIn, hvisible,
        if_neg heof]
      exact (peekIn_dropNewlines n rest).symm

theorem Sees.peek_two {opened : List Mark} {first second : TokenKind}
    {more : List TokenKind} {cursor : Cursor}
    (hsees : cursor.Sees opened (first :: second :: more))
    (hfirst : first.isPlain = true) (heof : first ≠ .eof)
    (hsecond : second.isPlain = true) (hother : second ≠ .eof) :
    cursor.peek 2 = firstOf more := by
  rw [hsees.peek_succ heof]
  exact (hsees.advance hfirst heof).peek_one hsecond hother

end Cursor

section Ends

variable {more others : List TokenKind}

theorem Parse.EndsForm.joint? (hends : EndsForm more) :
    (firstOf more).joint? = none := by
  have hend := hends.ends
  unfold endsStatement at hend
  split at hend
  · next hkind => rw [hkind]; rfl
  · next hkind => rw [hkind]; rfl
  · next hkind => rw [hkind]; rfl
  · next hkind => rw [hkind]; rfl
  · cases hend

/-- A list of statements ends at its close. -/
theorem endsForm_of_stop {stop : TokenKind} (hmore : firstOf more = stop)
    (hstop : stop = .mark .closeBrace ∨ stop = .eof) : EndsForm more := by
  have hline : firstOf more ≠ .newline := by
    rw [hmore]
    rcases hstop with rfl | rfl <;> nofun
  have hdrop := dropWhile_of_firstOf hline
  refine ⟨?_, ?_, ?_⟩
  · rw [hmore]
    rcases hstop with rfl | rfl <;> rfl
  · rw [hdrop, hmore]
    rcases hstop with rfl | rfl <;> nofun
  · rw [hdrop, hmore]
    rcases hstop with rfl | rfl <;> nofun

/-- Where more statements follow, the statement has ended as well. -/
theorem endsForm_of_last {last stop : TokenKind} {inLoop : Bool}
    (hlast : last ∈ [.newline, .mark .semicolon])
    (hothers : (Phrase.statements inLoop).Starts others)
    (hmore : firstOf more = stop)
    (hstop : stop = .mark .closeBrace ∨ stop = .eof) :
    EndsForm (last :: (others ++ more)) := by
  have hnext : ∀ word : Keyword, word = .elifKw ∨ word = .elseKw →
      firstOf ((others ++ more).dropWhile isBreak) ≠ .keyword word := by
    intro word hword
    have hline : firstOf more ≠ .newline := by
      rw [hmore]
      rcases hstop with rfl | rfl <;> nofun
    rcases hothers with hbreaks | hstarts
    · rw [hbreaks.dropWhile_append, dropWhile_of_firstOf hline, hmore]
      rcases hstop with rfl | rfl <;> nofun
    · obtain ⟨gap, hgap, hbreaks⟩ := exists_breaks others
      rw [hgap, List.append_assoc, hbreaks.dropWhile_append]
      have hfirst := firstOf_append (ne_nil_of_startsStmt hstarts) more
      rw [dropWhile_of_firstOf, hfirst]
      · exact TokenKind.ne_of_startsStmt hstarts
          (by rcases hword with rfl | rfl <;> rfl)
      · rw [hfirst]
        exact TokenKind.ne_of_startsStmt hstarts rfl
  simp only [List.mem_cons, List.not_mem_nil, or_false] at hlast
  rcases hlast with rfl | rfl
  · have hdrop : (TokenKind.newline :: (others ++ more)).dropWhile isBreak =
        (others ++ more).dropWhile isBreak := List.dropWhile_cons_of_pos rfl
    exact ⟨rfl, by rw [hdrop]; exact hnext _ (.inl rfl),
      by rw [hdrop]; exact hnext _ (.inr rfl)⟩
  · exact ⟨rfl, nofun, nofun⟩

end Ends

section Small

variable {kinds : List TokenKind} {inLoop : Bool}

/-- An expression is no function statement. -/
theorem Opens.startsFuncBlock_eq_false {opened : List Mark} {cursor : Cursor}
    {more : List TokenKind} (hopens : Opens kinds)
    (hsees : cursor.Sees opened (kinds ++ more))
    (hfirst : firstOf kinds = .keyword .funcKw) :
    startsFuncBlock cursor = false := by
  have hparen := hopens.func hfirst
  obtain ⟨rest, rfl⟩ := eq_cons_of_firstOf hfirst nofun
  obtain ⟨others, hrest⟩ := eq_cons_of_firstOf hparen nofun
  obtain rfl : rest = .mark .openParen :: others := hrest
  have hpeek : cursor.peek 1 = .mark .openParen := hsees.peek_one rfl nofun
  rw [startsFuncBlock, hpeek]

/-- An expression is no assignment of a block. -/
theorem Opens.startsAssignBlock_eq_false {opened : List Mark} {cursor : Cursor}
    {more : List TokenKind} {name : String} (hopens : Opens kinds)
    (hsees : cursor.Sees opened (kinds ++ more))
    (hfirst : firstOf kinds = .ident name)
    (hends : endsStatement (firstOf more) = true) :
    startsAssignBlock cursor = false := by
  have hmore : ∀ {kind : TokenKind}, endsStatement kind = false →
      firstOf more ≠ kind := by
    rintro kind hkind rfl
    exact absurd hends (ne_true_of_eq_false hkind)
  obtain ⟨rest, rfl⟩ := eq_cons_of_firstOf hfirst (TokenKind.ne_eof rfl)
  have hone : cursor.peek 1 = firstOf (rest ++ more) :=
    hsees.peek_one rfl (TokenKind.ne_eof rfl)
  rw [startsAssignBlock, hone, Bool.and_eq_false_iff, decide_eq_false_iff_not,
    decide_eq_false_iff_not]
  by_cases hassign : firstOf (rest ++ more) = .mark .assign
  · refine .inr fun hbrace => ?_
    cases rest with
    | nil => exact hmore rfl hassign
    | cons second rest =>
        obtain rfl : second = .mark .assign := hassign
        have htwo : cursor.peek 2 = firstOf (rest ++ more) :=
          hsees.peek_two rfl (TokenKind.ne_eof rfl) rfl (TokenKind.ne_eof rfl)
        rw [htwo] at hbrace
        cases rest with
        | nil => exact hmore rfl hbrace
        | cons third rest =>
            rcases hopens.key rfl with hnone | ⟨-, hthird⟩
            · cases hnone
            · exact hthird rfl hbrace
  · exact .inl hassign

/-- An expression is a statement by itself. -/
theorem parses_evaluate (hvalue : (Phrase.expr .assign).Parses kinds)
    (hleads : (firstOf kinds).Leads .assign) (hopens : Opens kinds) :
    (Phrase.small inLoop).Parses kinds := by
  intro depth around base more _ hends
  have hfirst := firstOf_append hopens.nonempty more
  have hne : ∀ {kind : TokenKind}, kind.lead? = none →
      firstOf (kinds ++ more) ≠ kind := by
    intro kind hkind
    rw [hfirst]
    exact hleads.ne hkind
  have hsmall : Takes around base (smallStatement (grammar depth))
      (kinds ++ more) more fun _ _ => True := by
    apply Runs.kind
    split
    · next hkind => exact absurd hkind (hne rfl)
    · next hkind => exact absurd hkind (hne rfl)
    · next hkind => exact absurd hkind (hne rfl)
    · next hkind => exact absurd hkind (hne rfl)
    · exact (hvalue depth around base more
        (Precedence.ends_of_joint? hends.joint? _)).bind
          fun _ _ _ _ => takes_pure fun _ _ => trivial
  refine .look fun cursor hsees => ?_
  have hkind := hsees.kind_eq
  simp only [id_eq]
  split
  · next hword => exact absurd (hkind.symm.trans hword) (hne rfl)
  · next hword => exact absurd (hkind.symm.trans hword) (hne rfl)
  · next hword => exact absurd (hkind.symm.trans hword) (hne rfl)
  · next hword => exact absurd (hkind.symm.trans hword) (hne rfl)
  · next hword => exact absurd (hkind.symm.trans hword) (hne rfl)
  · next hword => exact absurd (hkind.symm.trans hword) (hne rfl)
  · next hword =>
    have hno := hopens.startsFuncBlock_eq_false hsees
      (hfirst.symm.trans (hkind.symm.trans hword))
    rw [if_neg (ne_true_of_eq_false hno)]
    exact hsmall
  · next name hword =>
    have hno := hopens.startsAssignBlock_eq_false hsees
      (hfirst.symm.trans (hkind.symm.trans hword)) hends.ends
    rw [if_neg (ne_true_of_eq_false hno)]
    exact hsmall
  · exact hsmall

/-- The statements without blocks that start with a word of their own. -/
theorem takes_smallForm {word : Keyword} {depth : Nat} {around : Surroundings}
    {base : Program} {before more : List TokenKind}
    (hword : word ∈ [Keyword.returnKw, .raiseKw, .breakKw, .continueKw])
    (hsmall : Takes around base (smallStatement (grammar depth))
      (.keyword word :: before) more fun _ _ => True) :
    Takes around base (statementForm (grammar depth)) (.keyword word :: before)
      more fun _ _ => True := by
  refine .look fun cursor hsees => ?_
  simp only [id_eq, hsees.kind_eq, firstOf_cons]
  simp only [List.mem_cons, List.not_mem_nil, or_false] at hword
  rcases hword with rfl | rfl | rfl | rfl <;> exact hsmall

/-- A statement that leaves, and what it takes along. -/
theorem takes_leave {word : Keyword} {depth : Nat} {around : Surroundings}
    {base : Program} {before more : List TokenKind}
    (hword : word ∈ [Keyword.returnKw, .raiseKw])
    (hvalue : Takes around base (optionalExpr (grammar depth)) before more
      fun _ _ => True) :
    Takes around base (statementForm (grammar depth)) (.keyword word :: before)
      more fun _ _ => True := by
  simp only [List.mem_cons, List.not_mem_nil, or_false] at hword
  rcases hword with rfl | rfl
  · exact takes_smallForm (by simp) (.kind (.step rfl nofun fun _ _ =>
      hvalue.bind fun _ _ _ _ => takes_pure fun _ _ => trivial))
  · exact takes_smallForm (by simp) (.kind (.step rfl nofun fun _ _ =>
      hvalue.bind fun _ _ _ _ => takes_pure fun _ _ => trivial))

theorem parses_leave {word : Keyword}
    (hword : word ∈ [Keyword.returnKw, .raiseKw]) :
    (Phrase.small inLoop).Parses [.keyword word] := by
  intro depth around base more _ hends
  rw [List.singleton_append]
  refine takes_leave hword (.kind ?_)
  rw [hends.ends]
  exact takes_pure fun _ _ => trivial

theorem parses_leaveWith {word : Keyword}
    (hword : word ∈ [Keyword.returnKw, .raiseKw])
    (hvalue : (Phrase.expr .assign).Parses kinds)
    (hleads : (firstOf kinds).Leads .assign) :
    (Phrase.small inLoop).Parses (.keyword word :: kinds) := by
  intro depth around base more _ hends
  rw [List.cons_append]
  have hfirst := leads_append hleads more
  have hgoes : endsStatement (firstOf (kinds ++ more)) = false := by
    unfold endsStatement
    split
    · next hkind => exact absurd hkind (hfirst.ne rfl)
    · next hkind => exact absurd hkind (hfirst.ne rfl)
    · next hkind => exact absurd hkind (hfirst.ne rfl)
    · next hkind => exact absurd hkind (hfirst.ne rfl)
    · rfl
  refine takes_leave hword (.kind ?_)
  rw [hgoes]
  exact (parses_expr hvalue depth around base more hends.joint?).bind
    fun _ _ _ _ => takes_pure fun _ _ => trivial

theorem parses_loopExit {word : Keyword}
    (hword : word ∈ [Keyword.breakKw, .continueKw]) :
    (Phrase.small true).Parses [.keyword word] := by
  intro depth around base more hloop _
  have hexit : ∀ form, Takes around base (loopExit form)
      (.keyword word :: more) more fun _ _ => True := by
    intro form
    refine .read fun state hstate => ?_
    have hdepth : state.loopDepth ≠ 0 := by
      have hinLoop := hstate.inLoop.trans hloop
      simpa [ParserState.inLoop] using hinLoop
    rw [if_neg hdepth]
    exact .step rfl (TokenKind.ne_eof rfl) fun _ _ =>
      takes_pure fun _ _ => trivial
  simp only [List.mem_cons, List.not_mem_nil, or_false] at hword
  rcases hword with rfl | rfl
  · exact takes_smallForm (by simp) (.kind (hexit .break))
  · exact takes_smallForm (by simp) (.kind (hexit .continue))

end Small

section Compound

variable {inLoop : Bool} {condition body others kinds : List TokenKind}

/-- A block stands behind what is over at its brace. -/
theorem joint?_block (hbody : (Phrase.block inLoop).Starts body)
    (more : List TokenKind) : (firstOf (body ++ more)).joint? = none := by
  have hne : body ≠ [] := by
    rintro rfl
    cases hbody
  have hbrace : firstOf body = .mark .openBrace := hbody
  rw [firstOf_append hne, hbrace]
  rfl

theorem takes_branch (hcondition : (Phrase.expr .assign).Parses condition)
    (hbody : (Phrase.block inLoop).Parses body)
    (hstarts : (Phrase.block inLoop).Starts body)
    (hothers : (Phrase.branches inLoop).Parses others) (depth : Nat)
    {around : Surroundings} (base : Program) {more : List TokenKind}
    (word : Keyword) (hloop : around.inLoop = inLoop) (hends : EndsForm more) :
    Takes around base (Parse.branch (grammar depth))
      (.keyword word :: (condition ++ (body ++ (others ++ more)))) more
      fun _ _ => True := by
  refine .step rfl nofun fun _ _ => ?_
  refine (hcondition depth around base _ (Precedence.ends_of_joint?
    (joint?_block hstarts _) _)).bind fun program _ _ _ => ?_
  refine (parses_blockRule hbody depth program _ hloop).bind
    fun program _ _ _ => ?_
  exact (hothers depth around program more hloop hends).bind
    fun _ _ _ _ => takes_pure fun _ _ => trivial

theorem parses_branch (hcondition : (Phrase.expr .assign).Parses condition)
    (hbody : (Phrase.block inLoop).Parses body)
    (hstarts : (Phrase.block inLoop).Starts body)
    (hothers : (Phrase.branches inLoop).Parses others) :
    (Phrase.compound inLoop).Parses
      (.keyword .ifKw :: (condition ++ body ++ others)) := by
  intro depth around base more hloop hends
  simp only [List.cons_append, List.append_assoc]
  refine .look fun cursor hsees => ?_
  simp only [id_eq, hsees.kind_eq]
  exact .within _ (takes_branch hcondition hbody hstarts hothers depth base
    .ifKw hloop hends)

theorem parses_noBranch : (Phrase.branches inLoop).Parses [] := by
  intro depth around base more _ hends
  rw [List.nil_append]
  refine .look fun cursor hsees => ?_
  rw [hsees.peekPastNewlines_eq, if_neg hends.noElif]
  exact .continuation (fun gap rest hgap hmore => absurd (by
      rw [hmore, hgap.dropWhile_append]; rfl) hends.noElse)
    fun _ => takes_pure fun _ _ => trivial

theorem parses_otherwise {gap : List TokenKind} (hgap : Breaks gap)
    (hbody : (Phrase.block inLoop).Parses body) :
    (Phrase.branches inLoop).Parses (gap ++ .keyword .elseKw :: body) := by
  intro depth around base more hloop _
  rw [List.append_assoc, List.cons_append]
  have hdrop : (gap ++ .keyword .elseKw :: (body ++ more)).dropWhile isBreak =
      .keyword .elseKw :: (body ++ more) := by
    rw [hgap.dropWhile_append]
    rfl
  refine .look fun cursor hsees => ?_
  rw [hsees.peekPastNewlines_eq, hdrop, if_neg nofun]
  refine .continuation (fun other rest hother hrest => ?_)
    fun hne => absurd (by rw [hdrop]; rfl) hne
  have hsame := congrArg (List.dropWhile isBreak) hrest
  rw [hdrop, hother.dropWhile_append] at hsame
  obtain ⟨-, rfl⟩ := List.cons.inj hsame
  exact (parses_blockRule hbody depth base more hloop).bind
    fun _ _ _ _ => takes_pure fun _ _ => trivial

theorem parses_otherIf {gap : List TokenKind} (hgap : Breaks gap)
    (hcondition : (Phrase.expr .assign).Parses condition)
    (hbody : (Phrase.block inLoop).Parses body)
    (hstarts : (Phrase.block inLoop).Starts body)
    (hothers : (Phrase.branches inLoop).Parses others) :
    (Phrase.branches inLoop).Parses
      (gap ++ .keyword .elifKw :: (condition ++ body ++ others)) := by
  intro depth around base more hloop hends
  simp only [List.cons_append, List.append_assoc]
  refine .look fun cursor hsees => ?_
  have hdrop : (gap ++ .keyword .elifKw ::
      (condition ++ (body ++ (others ++ more)))).dropWhile isBreak =
      .keyword .elifKw :: (condition ++ (body ++ (others ++ more))) := by
    rw [hgap.dropWhile_append]
    rfl
  rw [hsees.peekPastNewlines_eq, hdrop, firstOf_cons, if_pos rfl]
  refine .skipNewlines ?_
  rw [hdrop]
  have hnested : Takes around base (grammar depth .branch)
      (.keyword .elifKw :: (condition ++ (body ++ (others ++ more)))) more
      fun _ _ => True := by
    cases depth with
    | zero => exact runs_exhausted
    | succ depth =>
        exact takes_branch hcondition hbody hstarts hothers depth base .elifKw
          hloop hends
  refine .look fun _ _ => hnested.bind fun _ _ _ _ => .look fun _ _ => ?_
  exact runs_branchBlock.bind fun _ _ _ _ hafter =>
    runs_pure fun _ _ => ⟨hafter, trivial⟩

theorem parses_scope (hbody : (Phrase.block inLoop).Parses body) :
    (Phrase.compound inLoop).Parses (.keyword .doKw :: body) := by
  intro depth around base more hloop _
  refine .look fun cursor hsees => ?_
  simp only [id_eq, hsees.kind_eq]
  exact .within _ (.step rfl nofun fun _ _ =>
    (parses_blockRule hbody depth base more hloop).bind
      fun _ _ _ _ => takes_pure fun _ _ => trivial)

theorem takes_loopVariables {bound : List TokenKind}
    (hbound : LoopVariables bound) {around : Surroundings}
    {base : Program} (more : List TokenKind) :
    Takes around base loopVariables (bound ++ .keyword .inKw :: more)
      (.keyword .inKw :: more) fun _ _ => True := by
  cases hbound with
  | value name =>
      refine .expectIdent (fun _ => ⟨name, rfl⟩) fun found rest hrest => ?_
      obtain ⟨-, rfl⟩ := List.cons.inj hrest
      exact .eat rfl rfl nofun (fun rest hrest => by cases hrest)
        fun _ => takes_pure fun _ _ => trivial
  | both key value =>
      refine .expectIdent (fun _ => ⟨key, rfl⟩) fun found rest hrest => ?_
      obtain ⟨-, rfl⟩ := List.cons.inj hrest
      refine .eat rfl rfl nofun (fun rest hrest => ?_) fun hne => absurd rfl hne
      obtain ⟨-, rfl⟩ := List.cons.inj hrest
      refine .expectIdent (fun _ => ⟨value, rfl⟩) fun found rest hrest => ?_
      obtain ⟨-, rfl⟩ := List.cons.inj hrest
      exact takes_pure fun _ _ => trivial

theorem parses_loop {bound : List TokenKind}
    (hbound : LoopVariables bound)
    (hiterated : (Phrase.expr .assign).Parses kinds)
    (hbody : (Phrase.block true).Parses body)
    (hstarts : (Phrase.block true).Starts body) :
    (Phrase.compound inLoop).Parses (.keyword .forKw ::
      (bound ++ .keyword .inKw :: (kinds ++ body))) := by
  intro depth around base more _ _
  simp only [List.cons_append, List.append_assoc]
  refine .look fun cursor hsees => ?_
  simp only [id_eq, hsees.kind_eq]
  refine .within _ (.step rfl nofun fun _ _ => ?_)
  refine (takes_loopVariables hbound _).bind fun program _ _ _ => ?_
  refine .expect rfl rfl nofun (fun _ => rfl) fun token rest hrest => ?_
  obtain ⟨-, rfl⟩ := List.cons.inj hrest
  refine (hiterated depth around program _ (Precedence.ends_of_joint?
    (joint?_block hstarts _) _)).bind fun program _ _ _ => ?_
  exact Takes.bind (Runs.inLoop (parses_blockRule hbody depth program more rfl))
    fun _ _ _ _ => takes_pure fun _ _ => trivial

theorem takes_namesFrom (names : List String) (rounds : Nat)
    {around : Surroundings} {base : Program} {more : List TokenKind}
    (hmore : firstOf more ≠ .mark .comma) :
    Takes around base (namesFrom rounds) (furtherNames names ++ more) more
      fun _ found => found = names := by
  induction names generalizing base rounds with
  | nil =>
      cases rounds with
      | zero => exact runs_exhausted
      | succ rounds =>
          exact .eat rfl rfl nofun
            (fun rest hrest => absurd (congrArg firstOf hrest) hmore)
            fun _ => takes_pure fun _ _ => rfl
  | cons name names ih =>
      cases rounds with
      | zero => exact runs_exhausted
      | succ rounds =>
          refine .eat rfl rfl nofun (fun rest hrest => ?_)
            fun hne => absurd rfl hne
          obtain ⟨-, rfl⟩ := List.cons.inj hrest
          refine .expectIdent (fun _ => ⟨name, rfl⟩) fun found rest hrest => ?_
          obtain ⟨hname, rfl⟩ := List.cons.inj hrest
          refine (ih rounds).bind fun _ found _ hfound => ?_
          exact takes_pure fun _ _ => by rw [hfound, TokenKind.ident.inj hname]

theorem takes_catchHead {head : List TokenKind} (hhead : CatchNames head)
    {around : Surroundings} {base : Program} (more : List TokenKind) :
    Takes around base catchHead (head ++ .mark .openBrace :: more)
      (.mark .openBrace :: more) fun _ _ => True := by
  cases hhead with
  | none =>
      refine .look fun cursor hsees => ?_
      rw [show cursor.ident? = none by rw [Cursor.ident?, hsees.kind_eq]; rfl]
      exact .read fun _ _ => takes_pure fun _ _ => trivial
  | binding name hkind =>
      refine .look fun cursor hsees => ?_
      rw [hsees.ident?_of_first rfl]
      refine .look fun _ _ => .expectIdent (fun _ => ⟨name, rfl⟩)
        fun found rest hrest => ?_
      obtain ⟨hname, rfl⟩ := List.cons.inj hrest
      obtain rfl := TokenKind.ident.inj hname
      refine .look fun _ _ => Takes.bind (takes_namesFrom [] _ (by simp))
        fun program names _ hnames => ?_
      obtain rfl := hnames
      refine .eat rfl rfl (TokenKind.ne_eof rfl)
        (fun rest hrest => by cases hrest) fun _ => ?_
      simp only [Bool.false_eq_true, if_false, hkind]
      exact .read fun _ _ => takes_pure fun _ _ => trivial
  | kinds kind others name =>
      simp only [List.cons_append, List.append_assoc, List.nil_append]
      refine .look fun cursor hsees => ?_
      rw [hsees.ident?_of_first rfl]
      refine .look fun _ _ => .expectIdent (fun _ => ⟨kind, rfl⟩)
        fun found rest hrest => ?_
      obtain ⟨-, rfl⟩ := List.cons.inj hrest
      refine .look fun _ _ => Takes.bind (takes_namesFrom others _ (by simp))
        fun program names _ _ => ?_
      refine .eat rfl rfl (TokenKind.ne_eof rfl) (fun rest hrest => ?_)
        fun hne => absurd rfl hne
      obtain ⟨-, rfl⟩ := List.cons.inj hrest
      refine .expectIdent (fun _ => ⟨name, rfl⟩) fun found rest hrest => ?_
      obtain ⟨-, rfl⟩ := List.cons.inj hrest
      exact .add (fun _ => Program.grows_addNames _ _) fun _ _ _ =>
        takes_pure fun _ _ => trivial

theorem parses_attempt {gap head recovery : List TokenKind}
    (hbody : (Phrase.block inLoop).Parses body) (hgap : Breaks gap)
    (hhead : CatchNames head) (hrecovery : (Phrase.block inLoop).Parses recovery)
    (hstarts : (Phrase.block inLoop).Starts recovery) :
    (Phrase.compound inLoop).Parses (.keyword .tryKw ::
      (body ++ gap ++ .keyword .catchKw :: (head ++ recovery))) := by
  intro depth around base more hloop _
  simp only [List.cons_append, List.append_assoc]
  refine .look fun cursor hsees => ?_
  simp only [id_eq, hsees.kind_eq]
  refine .within _ (.step rfl nofun fun _ _ => ?_)
  refine (parses_blockRule hbody depth base _ hloop).bind
    fun program _ _ _ => ?_
  have hdrop : (gap ++ .keyword .catchKw ::
      (head ++ (recovery ++ more))).dropWhile isBreak =
      .keyword .catchKw :: (head ++ (recovery ++ more)) := by
    rw [hgap.dropWhile_append]
    rfl
  refine .continuation (fun other rest hother hrest => ?_)
    fun hne => absurd (by rw [hdrop]; rfl) hne
  have hsame := congrArg (List.dropWhile isBreak) hrest
  rw [hdrop, hother.dropWhile_append] at hsame
  obtain ⟨-, rfl⟩ := List.cons.inj hsame
  have hbrace : firstOf recovery = .mark .openBrace := hstarts
  obtain ⟨inside, rfl⟩ := eq_cons_of_firstOf hbrace nofun
  have hcatch : Takes around program
      (within .catchClause (Parse.catchClause (grammar depth)))
      (head ++ (.mark .openBrace :: inside ++ more)) more fun _ _ => True :=
    .within _ (Takes.bind (takes_catchHead hhead _) fun newer _ _ _ =>
      (parses_blockRule hrecovery depth newer more hloop).bind
        fun _ _ _ _ => takes_pure fun _ _ => trivial)
  exact hcatch.bind fun _ _ _ _ => takes_pure fun _ _ => trivial

theorem parses_resource (hacquired : (Phrase.expr .assign).Parses kinds)
    (hbody : (Phrase.block inLoop).Parses body)
    (hstarts : (Phrase.block inLoop).Starts body) :
    (Phrase.compound inLoop).Parses (.keyword .withKw :: (kinds ++ body)) := by
  intro depth around base more hloop _
  simp only [List.cons_append, List.append_assoc]
  refine .look fun cursor hsees => ?_
  simp only [id_eq, hsees.kind_eq]
  refine .within _ (.step rfl nofun fun _ _ => ?_)
  refine (hacquired depth around base _ (Precedence.ends_of_joint?
    (joint?_block hstarts _) _)).bind fun program _ _ _ => ?_
  refine .eat rfl rfl nofun (fun rest hrest => ?_) fun _ => ?_
  · have hjoint := joint?_block hstarts more
    have hbrace : firstOf body = .mark .openBrace := hstarts
    obtain ⟨inside, rfl⟩ := eq_cons_of_firstOf hbrace nofun
    cases hrest
  · exact (parses_blockRule hbody depth program more hloop).bind
      fun _ _ _ _ => takes_pure fun _ _ => trivial

theorem parses_namedResource (name : String)
    (hacquired : (Phrase.expr .assign).Parses kinds)
    (hbody : (Phrase.block inLoop).Parses body) :
    (Phrase.compound inLoop).Parses (.keyword .withKw ::
      (kinds ++ .keyword .asKw :: .ident name :: body)) := by
  intro depth around base more hloop _
  simp only [List.cons_append, List.append_assoc]
  refine .look fun cursor hsees => ?_
  simp only [id_eq, hsees.kind_eq]
  refine .within _ (.step rfl nofun fun _ _ => ?_)
  refine (hacquired depth around base (.keyword .asKw :: _)
    (Precedence.ends_of_joint? rfl _)).bind fun program _ _ _ => ?_
  refine .eat rfl rfl nofun (fun rest hrest => ?_) fun hne => absurd rfl hne
  obtain ⟨-, rfl⟩ := List.cons.inj hrest
  simp only [if_true, map_bind]
  refine .expectIdent (fun _ => ⟨name, rfl⟩) fun found rest hrest => ?_
  obtain ⟨-, rfl⟩ := List.cons.inj hrest
  exact (parses_blockRule hbody depth program more hloop).bind
    fun _ _ _ _ => takes_pure fun _ _ => trivial

theorem parses_assignBlock (name : String)
    (hbody : (Phrase.block inLoop).Parses body)
    (hstarts : (Phrase.block inLoop).Starts body) :
    (Phrase.compound inLoop).Parses
      (.ident name :: .mark .assign :: body) := by
  intro depth around base more hloop _
  have hbrace : firstOf body = .mark .openBrace := hstarts
  obtain ⟨inside, rfl⟩ := eq_cons_of_firstOf hbrace nofun
  refine .look fun cursor hsees => ?_
  have hone : cursor.peek 1 = .mark .assign := hsees.peek_one rfl nofun
  have htwo : cursor.peek 2 = .mark .openBrace :=
    hsees.peek_two rfl nofun rfl nofun
  have hyes : startsAssignBlock cursor = true := by
    rw [startsAssignBlock, hone, htwo]
    rfl
  simp only [id_eq, hsees.kind_eq, List.cons_append, firstOf_cons, hyes, if_true]
  refine .within _ (.step rfl nofun fun _ _ => .step rfl nofun fun _ _ => ?_)
  exact (parses_blockRule hbody depth base more hloop).bind
    fun _ _ _ _ => takes_pure fun _ _ => trivial

theorem parses_funcBlock {params : List TokenKind} (name : String)
    (hparams : Phrase.params.Parses params)
    (hbody : (Phrase.block false).Parses body) :
    (Phrase.compound inLoop).Parses (.keyword .funcKw :: .ident name ::
      .mark .openParen :: (params ++ .mark .closeParen :: body)) := by
  intro depth around base more _ _
  simp only [List.cons_append, List.append_assoc]
  refine .look fun cursor hsees => ?_
  have hone : cursor.peek 1 = .ident name := hsees.peek_one rfl nofun
  have hyes : startsFuncBlock cursor = true := by
    rw [startsFuncBlock, hone]
  simp only [id_eq, hsees.kind_eq, firstOf_cons, hyes, if_true]
  refine .within _ (.step rfl nofun fun _ _ => ?_)
  refine .expectIdent (fun _ => ⟨name, rfl⟩) fun found rest hrest => ?_
  obtain ⟨-, rfl⟩ := List.cons.inj hrest
  exact (takes_functionRest hparams hbody depth _ _).bind
    fun _ _ _ _ => takes_pure fun _ _ => trivial

theorem parses_inheritBlock (name parent : String)
    (hbody : (Phrase.block inLoop).Parses body) :
    (Phrase.compound inLoop).Parses (.keyword .inheritKw :: .ident name ::
      .keyword .fromKw :: .ident parent :: body) := by
  intro depth around base more hloop _
  refine .look fun cursor hsees => ?_
  simp only [id_eq, hsees.kind_eq]
  refine .within _ (.step rfl nofun fun _ _ => ?_)
  refine .expectIdent (fun _ => ⟨name, rfl⟩) fun found rest hrest => ?_
  obtain ⟨-, rfl⟩ := List.cons.inj hrest
  refine .expect rfl rfl nofun (fun _ => rfl) fun token rest hrest => ?_
  obtain ⟨-, rfl⟩ := List.cons.inj hrest
  refine .expectIdent (fun _ => ⟨parent, rfl⟩) fun found rest hrest => ?_
  obtain ⟨-, rfl⟩ := List.cons.inj hrest
  exact (parses_blockRule hbody depth base more hloop).bind
    fun _ _ _ _ => takes_pure fun _ _ => trivial

end Compound

section Sequences

variable {inLoop : Bool} {gap stmt stmts others : List TokenKind}

theorem parses_noStatement (hgap : Breaks gap) :
    (Phrase.statements inLoop).Parses gap := by
  intro depth around base more stop rounds _ hmore hstop
  cases rounds with
  | zero => exact runs_exhausted
  | succ rounds =>
      have hline : firstOf more ≠ .newline := by
        rw [hmore]
        rcases hstop with rfl | rfl <;> nofun
      refine .skipNewlines ?_
      rw [hgap.dropWhile_append, dropWhile_of_firstOf hline]
      refine .check (.check ?_)
      have hsame : (firstOf more).sameVariant stop = true := by
        rw [hmore]
        rcases hstop with rfl | rfl <;> rfl
      rw [hsame, Bool.true_or]
      exact takes_pure fun _ _ => trivial

/-- A list goes on with its first statement. -/
theorem takes_statementsFrom {depth rounds : Nat} {stop : TokenKind}
    {around : Surroundings} {base : Program} {middle more : List TokenKind}
    (hgap : Breaks gap) (hstarts : (firstOf stmt).startsStmt = true)
    (hstop : stop = .mark .closeBrace ∨ stop = .eof)
    (hstmt : Takes around base (statement (grammar depth)) (stmt ++ middle)
      others fun _ _ => True)
    (hrest : ∀ program rounds, Takes around program
      (statementsFrom (grammar depth) stop rounds) others more
      fun _ _ => True) :
    Takes around base (statementsFrom (grammar depth) stop rounds)
      (gap ++ (stmt ++ middle)) more fun _ _ => True := by
  cases rounds with
  | zero => exact runs_exhausted
  | succ rounds =>
      have hfirst := firstOf_append (ne_nil_of_startsStmt hstarts) middle
      have hne : ∀ {kind : TokenKind}, kind.startsStmt = false →
          firstOf (stmt ++ middle) ≠ kind := by
        intro kind hkind
        rw [hfirst]
        exact TokenKind.ne_of_startsStmt hstarts hkind
      refine .skipNewlines ?_
      rw [hgap.dropWhile_append, dropWhile_of_firstOf (hne rfl)]
      refine .check (.check ?_)
      have hgoes : ((firstOf (stmt ++ middle)).sameVariant stop ||
          (firstOf (stmt ++ middle)).sameVariant .eof) = false := by
        rw [TokenKind.sameVariant_eof (hne rfl), Bool.or_false]
        rcases hstop with rfl | rfl
        · exact TokenKind.sameVariant_mark (hne rfl)
        · exact TokenKind.sameVariant_eof (hne rfl)
      rw [hgoes]
      exact hstmt.bind fun program _ _ _ => (hrest program rounds).bind
        fun _ _ _ _ => takes_pure fun _ _ => trivial

theorem takes_statement {depth : Nat} {around : Surroundings} {base : Program}
    {middle more : List TokenKind}
    (hstmt : (Phrase.statement inLoop).Parses stmt)
    (hloop : around.inLoop = inLoop) (hends : EndsForm middle)
    (hend : ∀ program, Takes around program statementEnd middle more
      fun _ _ => True) :
    Takes around base (statement (grammar depth)) (stmt ++ middle) more
      fun _ _ => True := by
  refine .look fun _ _ => (hstmt depth around base middle hloop hends).bind
    fun _ _ _ _ => .look fun _ _ => ?_
  exact .add (fun _ => Program.grows_addStmt _ _) fun program _ _ =>
    (hend program).bind fun _ _ _ _ => takes_pure fun _ _ => trivial

theorem parses_lastStatement (hgap : Breaks gap)
    (hstmt : (Phrase.statement inLoop).Parses stmt)
    (hstarts : (firstOf stmt).startsStmt = true) :
    (Phrase.statements inLoop).Parses (gap ++ stmt) := by
  intro depth around base more stop rounds hloop hmore hstop
  have hnone : Breaks [] := nofun
  rw [List.append_assoc]
  refine takes_statementsFrom hgap hstarts hstop (takes_statement hstmt hloop
    (endsForm_of_stop hmore hstop) fun program => .kind ?_)
    fun program rounds => parses_noStatement hnone depth around
      program more stop rounds hloop hmore hstop
  rw [hmore]
  rcases hstop with rfl | rfl <;> exact takes_pure fun _ _ => trivial

theorem parses_nextStatement {last : TokenKind} (hgap : Breaks gap)
    (hstmt : (Phrase.statement inLoop).Parses stmt)
    (hstarts : (firstOf stmt).startsStmt = true)
    (hlast : last ∈ [.newline, .mark .semicolon])
    (hothers : (Phrase.statements inLoop).Parses others)
    (hnext : (Phrase.statements inLoop).Starts others) :
    (Phrase.statements inLoop).Parses (gap ++ stmt ++ last :: others) := by
  intro depth around base more stop rounds hloop hmore hstop
  simp only [List.append_assoc, List.cons_append]
  refine takes_statementsFrom hgap hstarts hstop (takes_statement hstmt hloop
    (endsForm_of_last hlast hnext hmore hstop) fun program => .kind ?_)
    fun program rounds => hothers depth around program more stop rounds hloop
      hmore hstop
  simp only [List.mem_cons, List.not_mem_nil, or_false] at hlast
  rcases hlast with rfl | rfl <;>
    exact .step rfl nofun fun _ _ => takes_pure fun _ _ => trivial

theorem parses_block (hstmts : (Phrase.statements inLoop).Parses stmts) :
    (Phrase.block inLoop).Parses
      (.mark .openBrace :: (stmts ++ [.mark .closeBrace])) := by
  intro depth around base more hloop
  simp only [List.cons_append, List.append_assoc, List.nil_append]
  rw [block_eq]
  refine .within _ (.check (.look fun _ _ => ?_))
  refine .region rfl rfl rfl (closes_closing _ _)
    (.look fun _ _ => hstmts depth ⟨.openBrace :: around.opened, around.inLoop⟩
      base (.mark .closeBrace :: more) _ _ hloop rfl (.inl rfl))
    (fun _ _ _ _ ⟨hafter, _⟩ => by rw [hafter]; rfl) ?_
  rintro program list after _ - ⟨hafter, -⟩
  obtain ⟨-, rfl⟩ := List.cons.inj hafter
  exact .add (fun _ => Program.grows_addStmtList _ _) fun _ _ _ =>
    takes_pure fun _ _ => trivial

theorem parses_script (hstmts : (Phrase.statements false).Parses stmts) :
    Phrase.script.Parses (stmts ++ [.eof]) := by
  intro depth around base hloop
  refine .within _ (.look fun _ _ => .look fun _ _ => ?_)
  refine (hstmts depth around base [.eof] .eof _ hloop rfl (.inr rfl)).bind
    fun _ _ _ _ => .look fun _ _ => ?_
  exact .add (fun _ => Program.grows_addStmtList _ _) fun _ _ _ =>
    takes_pure fun _ _ => trivial

end Sequences

/-- The parser reads every phrase of the uniform dialect. -/
theorem Derives.parses {phrase : Phrase} {kinds : List TokenKind}
    (hderives : Derives .uniform phrase kinds) : phrase.Parses kinds := by
  induction hderives with
  | script _ ih => exact parses_script ih
  | noStatement hgap => exact parses_noStatement hgap
  | lastStatement _ hgap hstmt ih =>
      exact parses_lastStatement hgap ih hstmt.starts
  | nextStatement last _ hgap hstmt hlast hothers ih ihothers =>
      exact parses_nextStatement hgap ih hstmt.starts hlast ihothers
        hothers.starts
  | nextCompound hends | lastInline hends | nextInline hends => cases hends
  | inlineOne | inlineClosed | inlineMore => trivial
  | ofSmall _ ih | ofCompound _ ih => exact ih
  | leave word hword => exact parses_leave hword
  | leaveWith word hword hvalue ih =>
      exact parses_leaveWith hword ih hvalue.starts.1
  | loopExit word hword => exact parses_loopExit hword
  | evaluate hvalue ih =>
      exact parses_evaluate ih hvalue.starts.1 hvalue.starts.2
  | branch _ hbody _ ihcondition ihbody ihothers =>
      exact parses_branch ihcondition ihbody hbody.starts ihothers
  | scope _ ih => exact parses_scope ih
  | loop hbound _ hbody ihiterated ihbody =>
      exact parses_loop hbound ihiterated ihbody hbody.starts
  | attempt _ hgap hhead hrecovery ihbody ihrecovery =>
      exact parses_attempt ihbody hgap hhead ihrecovery hrecovery.starts
  | resource _ hbody ihacquired ihbody =>
      exact parses_resource ihacquired ihbody hbody.starts
  | namedResource name _ _ ihacquired ihbody =>
      exact parses_namedResource name ihacquired ihbody
  | assignBlock name hbody ih => exact parses_assignBlock name ih hbody.starts
  | funcBlock name _ _ ihparams ihbody =>
      exact parses_funcBlock name ihparams ihbody
  | inheritBlock name parent _ ih => exact parses_inheritBlock name parent ih
  | noBranch => exact parses_noBranch
  | otherwise hgap _ ih => exact parses_otherwise hgap ih
  | otherIf hgap _ hbody _ ihcondition ihbody ihothers =>
      exact parses_otherIf hgap ihcondition ihbody hbody.starts ihothers
  | block _ ih => exact parses_block ih
  | assign htarget _ ih => exact parses_assign htarget ih
  | plain hlevel hkinds ih => exact parses_plain hlevel ih hkinds.starts.1
  | negation _ ih => exact parses_negation ih
  | comparison op hop hleft _ ihleft ihright =>
      exact parses_comparison hop ihleft hleft.starts.2.nonempty ihright
  | signed sign hsign _ ih => exact parses_signed hsign ih
  | chain hlevel hoperand hothers ih ihothers =>
      exact parses_chain hlevel ih hoperand.starts.2.nonempty ihothers hothers
  | noOperand => exact parses_noOperand
  | operand op hop _ hothers ih ihothers =>
      exact parses_operand hop ih ihothers hothers
  | suffixed hatom hsuffixes ih ihsuffixes =>
      exact parses_suffixed ih hatom.starts.2.nonempty ihsuffixes hsuffixes
  | noSuffix => exact parses_noSuffix
  | call _ _ ihentries ihothers => exact parses_call ihentries ihothers
  | member key hkey _ ih => exact parses_member hkey ih
  | index _ _ ihkey ihothers => exact parses_index ihkey ihothers
  | literal kind hliteral => exact parses_literal hliteral
  | name name => exact parses_name name
  | badge key hkey => exact parses_badge hkey
  | array _ ih => exact parses_array ih
  | args _ ih => exact parses_args ih
  | func _ _ ihparams ihbody => exact parses_func ihparams ihbody
  | noEntry => exact parses_noEntry
  | lastEntry hentry ih => exact parses_lastEntry ih hentry.starts
  | nextEntry hentry _ ih ihothers =>
      exact parses_nextEntry ih hentry.starts ihothers
  | keyed key hkey _ ih => exact parses_keyed hkey ih
  | expand name => exact parses_expand name
  | item hvalue ih => exact parses_item ih hvalue.starts.1 hvalue.starts.2
  | noParam => exact parses_noParam
  | rest name => exact parses_rest name
  | lastParam hparam ih => exact parses_lastParam ih hparam.starts
  | nextParam hparam _ _ ih ihothers =>
      exact parses_nextParam ih hparam.starts ihothers
  | required name => exact parses_required name
  | optional name _ ih => exact parses_optional name ih

/-- A script of the uniform dialect is parsed. -/
theorem parse_of_derives (number : Nat) {tokens : List Token}
    (hlexed : LexedKinds (significantKinds [] tokens))
    (hderives : Derives .uniform .script (significantKinds [] tokens)) :
    ∃ parsed, parse number tokens = .ok parsed := by
  have hends := hderives.parses (tokens.length + 1) ⟨[], false⟩
    (.empty number) rfl (.start number tokens) (sees_start hlexed) (.refl _)
  have hanswers := runParser_ne_exhausted number tokens
  change Parse.EndsWell true _ _ _ (runParser number tokens) at hends
  unfold parse
  generalize runParser number tokens = ended at hends hanswers ⊢
  obtain ⟨outcome, final⟩ := ended
  cases outcome with
  | ok script => exact ⟨_, rfl⟩
  | error error => cases hends
  | halted reason =>
      cases reason with
      | exhausted => exact absurd rfl hanswers
      | dangling => cases hends

end ChainScript
