import ChainScript.Proofs.ConsumedPhrases
import ChainScript.Proofs.PhraseStarts
import Mathlib.Data.List.TakeWhile

/-
Statements, blocks and scripts that a parser consumes are phrases of the lenient
dialect.

A statement that is followed by another one has consumed its end.  The last one
stops in front of a closing brace or the end of the script; nothing that could be
a statement starts there, so the list is over as well.
-/

namespace ChainScript

open Step

theorem exists_breaks (kinds : List TokenKind) :
    ∃ gap, kinds = gap ++ kinds.dropWhile isBreak ∧ Breaks gap := by
  refine ⟨kinds.takeWhile isBreak, List.takeWhile_append_dropWhile.symm, ?_⟩
  intro kind hmem
  simpa [isBreak] using List.mem_takeWhile_imp hmem

namespace Parse

variable {grammar : Grammar} (hgrammar : grammar.Consumes)
  {around : Surroundings} {base : Program} {before : List TokenKind}

/-- What is left in front of a statement list that is over. -/
def AtEnd (kinds : List TokenKind) : Prop :=
  firstOf kinds = .mark .closeBrace ∨ firstOf kinds = .eof

/-- A statement has ended: at a token of its own, or with its list. -/
def EndedBefore (middle after : List TokenKind) : Prop :=
  (∃ last, last ∈ [TokenKind.newline, .mark .semicolon] ∧
    middle = last :: after) ∨ (middle = after ∧ AtEnd after)

theorem consumes_statementEnd :
    Runs false around base statementEnd before
      fun _ _ after => EndedBefore before after := by
  apply Runs.kind
  split
  · next hkind =>
    obtain ⟨more, rfl⟩ := eq_cons_of_firstOf hkind nofun
    exact .step rfl nofun fun _ _ => runs_pure fun _ _ =>
      .inl ⟨_, by simp, rfl⟩
  · next hkind =>
    obtain ⟨more, rfl⟩ := eq_cons_of_firstOf hkind nofun
    exact .step rfl nofun fun _ _ => runs_pure fun _ _ =>
      .inl ⟨_, by simp, rfl⟩
  · next hkind => exact runs_pure fun _ _ => .inr ⟨rfl, .inl hkind⟩
  · next hkind => exact runs_pure fun _ _ => .inr ⟨rfl, .inr hkind⟩
  · exact runs_fault rfl

theorem map_bind {α β γ : Type} (f : α → γ) (first : Parse α)
    (next : γ → Parse β) :
    f <$> first >>= next = first >>= fun value => next (f value) :=
  Step.bind_assoc first (fun value => pure (f value)) next

/-- A word that may stand on a later line. -/
theorem Runs.continuation {sure : Bool} {β : Type} {word : Keyword}
    {next : Bool → Parse β} {Good : Program → β → List TokenKind → Prop}
    (htrue : ∀ gap more, Breaks gap → before = gap ++ .keyword word :: more →
      Runs sure around base (next true) more Good)
    (hfalse : firstOf (before.dropWhile isBreak) ≠ .keyword word →
      Runs sure around base (next false) before Good) :
    Runs sure around base (eatContinuation word >>= next) before Good := by
  rw [eatContinuation, Step.bind_assoc]
  refine .look fun cursor hsees => ?_
  rw [hsees.peekPastNewlines_eq]
  split
  · next hword =>
    obtain ⟨gap, hbefore, hgap⟩ := exists_breaks before
    obtain ⟨more, hmore⟩ := eq_cons_of_firstOf hword nofun
    rw [Step.bind_assoc]
    refine .skipNewlines ?_
    rw [hmore] at hbefore ⊢
    rw [Step.bind_assoc]
    exact .step rfl nofun fun _ _ => htrue gap more hgap hbefore
  · next hword => exact hfalse hword

section Statements

include hgrammar

theorem consumes_optionalExpr :
    Runs false around base (optionalExpr grammar) before fun _ _ after =>
      before = after ∨ Consumed (.expr .assign) before after := by
  apply Runs.kind
  split
  · exact runs_pure fun _ _ => .inl rfl
  · refine (hgrammar.expr _ _ _).bind ?_
    rintro program value after - ⟨kinds, rfl, hkinds, -⟩
    exact runs_pure fun _ _ => .inr ⟨kinds, rfl, hkinds⟩

omit hgrammar in
/-- A loop is left only inside of it. -/
theorem consumes_loopExit (form : StmtKind) {word : Keyword}
    (hword : word ∈ [Keyword.breakKw, .continueKw]) :
    Runs false around base (loopExit form) (.keyword word :: before)
      fun _ _ after =>
        Consumed (.small around.inLoop) (.keyword word :: before) after := by
  refine .read fun state hstate => ?_
  split
  · exact runs_fault rfl
  · next hdepth =>
    have hloop : around.inLoop = true := by
      rw [← hstate.inLoop, ParserState.inLoop]
      simpa using hdepth
    rw [hloop]
    exact .step rfl (TokenKind.ne_eof rfl) fun _ _ => runs_pure fun _ _ =>
      ⟨[.keyword word], rfl, .loopExit word hword⟩

theorem consumes_smallStatement :
    Runs false around base (smallStatement grammar) before fun _ _ after =>
      Consumed (.small around.inLoop) before after := by
  have hleave : ∀ (word : Keyword) (more : List TokenKind)
      (form : Option ExprId → StmtKind),
      word ∈ [Keyword.returnKw, .raiseKw] →
      Runs false around base
        (do
          let _ ← advance
          return form (← optionalExpr grammar))
        (.keyword word :: more) fun _ _ after =>
          Consumed (.small around.inLoop) (.keyword word :: more) after := by
    intro word more form hword
    refine .step rfl nofun fun _ _ => (consumes_optionalExpr hgrammar).bind ?_
    rintro program value after - (rfl | ⟨kinds, rfl, hkinds⟩)
    · exact runs_pure fun _ _ => ⟨_, rfl, .leave word hword⟩
    · exact runs_pure fun _ _ => ⟨_, rfl, .leaveWith word hword hkinds⟩
  apply Runs.kind
  split
  · next hkind =>
    obtain ⟨more, rfl⟩ := eq_cons_of_firstOf hkind nofun
    exact hleave .returnKw more .return (by simp)
  · next hkind =>
    obtain ⟨more, rfl⟩ := eq_cons_of_firstOf hkind nofun
    exact hleave .raiseKw more .raise (by simp)
  · next hkind =>
    obtain ⟨more, rfl⟩ := eq_cons_of_firstOf hkind nofun
    exact consumes_loopExit .break (by simp)
  · next hkind =>
    obtain ⟨more, rfl⟩ := eq_cons_of_firstOf hkind nofun
    exact consumes_loopExit .continue (by simp)
  · refine (consumes_assignExpr hgrammar).bind ?_
    rintro program value after - ⟨kinds, rfl, hkinds, -⟩
    exact runs_pure fun _ _ => ⟨kinds, rfl, .evaluate hkinds⟩

omit hgrammar in
theorem runs_branchBlock {sure : Bool} {form : StmtKind} {span : Span} :
    Runs sure around base (branchBlock form span) before
      fun _ _ after => after = before :=
  .add (fun _ => Program.grows_addStmt _ _) fun _ _ _ =>
    .add (fun _ => Program.grows_addStmtList _ _) fun _ _ _ =>
      runs_pure fun _ _ => rfl

theorem consumes_otherBranch :
    Runs false around base (otherBranch grammar) before fun _ _ after =>
      Consumed (.branches around.inLoop) before after := by
  refine .look fun cursor hsees => ?_
  rw [hsees.peekPastNewlines_eq]
  split
  · next helif =>
    obtain ⟨gap, hbefore, hgap⟩ := exists_breaks before
    obtain ⟨more, hmore⟩ := eq_cons_of_firstOf helif nofun
    refine .skipNewlines ?_
    rw [hmore] at hbefore ⊢
    subst hbefore
    refine .look fun _ _ => (hgrammar.branch _ _ _ _).bind ?_
    rintro program nested after - ⟨condition, body, others, rfl, hcondition,
      hbody, hothers⟩
    refine .look fun _ _ => runs_branchBlock.bind ?_
    rintro newer block _ - rfl
    exact runs_pure fun _ _ => ⟨_, by simp,
      .otherIf hgap hcondition hbody hothers⟩
  · refine .continuation ?_ fun _ => runs_pure fun _ _ => ⟨[], rfl, .noBranch⟩
    rintro gap more hgap rfl
    refine (hgrammar.block _ _ _).bind ?_
    rintro program block after - ⟨body, rfl, hbody⟩
    exact runs_pure fun _ _ => ⟨_, by simp, .otherwise hgap hbody⟩

theorem consumes_branch (word : Keyword) :
    Runs false around base (branch grammar) (.keyword word :: before)
      fun _ _ after => ∃ condition body others,
        before = condition ++ body ++ others ++ after ∧
        Derives .lenient (.expr .assign) condition ∧
        Derives .lenient (.block around.inLoop) body ∧
        Derives .lenient (.branches around.inLoop) others := by
  refine .step rfl nofun fun _ _ => (consumes_assignExpr hgrammar).bind ?_
  rintro program value _ - ⟨condition, rfl, hcondition, -⟩
  refine (hgrammar.block _ _ _).bind ?_
  rintro _ block _ - ⟨body, rfl, hbody⟩
  refine (consumes_otherBranch hgrammar).bind ?_
  rintro _ other after - ⟨others, rfl, hothers⟩
  exact runs_pure fun _ _ =>
    ⟨condition, body, others, by simp, hcondition, hbody, hothers⟩

omit hgrammar in
theorem consumes_loopVariables :
    Runs false around base loopVariables before fun _ _ after =>
      ∃ bound, before = bound ++ after ∧ LoopVariables bound := by
  refine .expectIdent nofun ?_
  rintro name more rfl
  refine .eat rfl rfl nofun ?_ fun _ =>
    runs_pure fun _ _ => ⟨_, rfl, .value name⟩
  rintro more rfl
  refine .expectIdent nofun ?_
  rintro value more rfl
  exact runs_pure fun _ _ =>
    ⟨[.ident name, .mark .comma, .ident value], rfl, .both name value⟩

theorem consumes_loop :
    Runs false around base (loop grammar) (.keyword .forKw :: before)
      fun _ _ after =>
        Consumed (.compound around.inLoop) (.keyword .forKw :: before) after := by
  refine .step rfl nofun fun _ _ => consumes_loopVariables.bind ?_
  rintro program ⟨key, value⟩ _ - ⟨bound, rfl, hbound⟩
  refine .expect rfl rfl nofun nofun ?_
  rintro _ more rfl
  refine (consumes_assignExpr hgrammar).bind ?_
  rintro _ iterated _ - ⟨kinds, rfl, hkinds, -⟩
  refine (hgrammar.block _ _ _).inLoop.bind ?_
  rintro _ block after - ⟨body, rfl, hbody⟩
  exact runs_pure fun _ _ => ⟨_, by simp, .loop hbound hkinds hbody⟩

omit hgrammar in
theorem consumes_namesFrom (rounds : Nat) :
    Runs false around base (namesFrom rounds) before fun _ names after =>
      before = furtherNames names ++ after := by
  induction rounds generalizing base before with
  | zero => exact runs_exhausted
  | succ rounds ih =>
      refine .eat rfl rfl nofun ?_ fun _ => runs_pure fun _ _ => rfl
      rintro more rfl
      refine .expectIdent nofun ?_
      rintro name more rfl
      refine ih.bind ?_
      rintro _ names after - rfl
      exact runs_pure fun _ _ => rfl

omit hgrammar in
theorem consumes_catchHead :
    Runs false around base catchHead before fun _ _ after =>
      ∃ head, before = head ++ after ∧ CatchNames head := by
  refine .look fun cursor _ => ?_
  split
  · exact .read fun _ _ => runs_pure fun _ _ => ⟨[], rfl, .none⟩
  · refine .look fun _ _ => .expectIdent nofun ?_
    rintro name more rfl
    refine .look fun _ _ => (consumes_namesFrom _).bind ?_
    rintro program others _ - rfl
    refine .eat rfl rfl nofun ?_ fun _ => ?_
    · rintro more hmore
      refine .expectIdent nofun ?_
      rintro binding after rfl
      exact .add (fun _ => Program.grows_addNames _ _) fun _ _ _ =>
        runs_pure fun _ _ =>
          ⟨_, by simp [hmore], .kinds name others binding⟩
    · simp only [Bool.false_eq_true, if_false]
      split
      · split
        · exact runs_fail rfl
        · next hkind =>
          exact .read fun _ _ => runs_pure fun _ _ =>
            ⟨_, rfl, .binding name (by simpa using hkind)⟩
      · exact runs_fault rfl

theorem consumes_attempt :
    Runs false around base (attempt grammar) (.keyword .tryKw :: before)
      fun _ _ after =>
        Consumed (.compound around.inLoop) (.keyword .tryKw :: before) after := by
  refine .step rfl nofun fun _ _ => (hgrammar.block _ _ _).bind ?_
  rintro program block _ - ⟨body, rfl, hbody⟩
  refine .continuation ?_ fun _ => runs_fault rfl
  rintro gap more hgap rfl
  refine (Runs.within _ (consumes_catchHead.bind ?_)).bind
    fun _ _ _ _ hgood => runs_pure fun _ _ => hgood
  rintro _ ⟨binding, kinds⟩ _ - ⟨head, rfl, hhead⟩
  refine (hgrammar.block _ _ _).bind ?_
  rintro _ recovery after - ⟨kinds, rfl, hrecovery⟩
  exact runs_pure fun _ _ =>
    ⟨_, by simp, .attempt hbody hgap hhead hrecovery⟩

theorem consumes_resource :
    Runs false around base (resource grammar) (.keyword .withKw :: before)
      fun _ _ after =>
        Consumed (.compound around.inLoop) (.keyword .withKw :: before) after := by
  refine .step rfl nofun fun _ _ => (consumes_assignExpr hgrammar).bind ?_
  rintro program acquired _ - ⟨kinds, rfl, hkinds, -⟩
  refine .eat rfl rfl nofun ?_ fun _ => ?_
  · rintro more rfl
    simp only [if_true, map_bind]
    refine .expectIdent nofun ?_
    rintro name more rfl
    refine (hgrammar.block _ _ _).bind ?_
    rintro _ block after - ⟨body, rfl, hbody⟩
    exact runs_pure fun _ _ => ⟨_, by simp, .namedResource name hkinds hbody⟩
  · refine (hgrammar.block _ _ _).bind ?_
    rintro _ block after - ⟨body, rfl, hbody⟩
    exact runs_pure fun _ _ => ⟨_, by simp, .resource hkinds hbody⟩

theorem consumes_funcBlock :
    Runs false around base (funcBlock grammar) (.keyword .funcKw :: before)
      fun _ _ after =>
        Consumed (.compound around.inLoop) (.keyword .funcKw :: before) after := by
  refine .step rfl nofun fun _ _ => .expectIdent nofun ?_
  rintro name more rfl
  refine (consumes_functionRest hgrammar _ _).bind ?_
  rintro _ definition after - ⟨params, body, rfl, hparams, hbody⟩
  exact runs_pure fun _ _ => ⟨_, by simp, .funcBlock name hparams hbody⟩

theorem consumes_inheritBlock :
    Runs false around base (inheritBlock grammar)
      (.keyword .inheritKw :: before) fun _ _ after =>
        Consumed (.compound around.inLoop) (.keyword .inheritKw :: before)
          after := by
  refine .step rfl nofun fun _ _ => .expectIdent nofun ?_
  rintro name more rfl
  refine .expect rfl rfl nofun nofun ?_
  rintro _ more rfl
  refine .expectIdent nofun ?_
  rintro parent more rfl
  refine (hgrammar.block _ _ _).bind ?_
  rintro _ block after - ⟨body, rfl, hbody⟩
  exact runs_pure fun _ _ => ⟨_, rfl, .inheritBlock name parent hbody⟩

theorem consumes_doBlock :
    Runs false around base (doBlock grammar) (.keyword .doKw :: before)
      fun _ _ after =>
        Consumed (.compound around.inLoop) (.keyword .doKw :: before) after := by
  refine .step rfl nofun fun _ _ => (hgrammar.block _ _ _).bind ?_
  rintro _ block after - ⟨body, rfl, hbody⟩
  exact runs_pure fun _ _ => ⟨_, rfl, .scope hbody⟩

theorem consumes_assignBlock (name : String) :
    Runs false around base (assignBlock grammar name)
      (.ident name :: .mark .assign :: before) fun _ _ after =>
        Consumed (.compound around.inLoop)
          (.ident name :: .mark .assign :: before) after := by
  refine .step rfl nofun fun _ _ => .step rfl nofun fun _ _ =>
    (hgrammar.block _ _ _).bind ?_
  rintro _ block after - ⟨body, rfl, hbody⟩
  exact runs_pure fun _ _ => ⟨_, rfl, .assignBlock name hbody⟩

theorem consumes_statementForm :
    Runs false around base (statementForm grammar) before fun _ _ after =>
      Consumed (.statement around.inLoop) before after := by
  have hsmall : Runs false around base (smallStatement grammar) before
      fun _ _ after => Consumed (.statement around.inLoop) before after :=
    (consumes_smallStatement hgrammar).mono
      fun _ _ _ _ ⟨kinds, hbefore, hkinds⟩ => ⟨kinds, hbefore, .ofSmall hkinds⟩
  have hcompound : ∀ {parser : Parse StmtKind} (context : ParseContext),
      Runs false around base parser before (fun _ _ after =>
        Consumed (.compound around.inLoop) before after) →
      Runs false around base (within context parser) before fun _ _ after =>
        Consumed (.statement around.inLoop) before after :=
    fun context hparser => (hparser.within context).mono
      fun _ _ _ _ ⟨kinds, hbefore, hkinds⟩ =>
        ⟨kinds, hbefore, .ofCompound hkinds⟩
  refine .look fun cursor hsees => ?_
  have hfirst := hsees.kind_eq
  simp only [id_eq]
  split
  · next hkind =>
    obtain ⟨more, rfl⟩ := eq_cons_of_firstOf (hfirst.symm.trans hkind) nofun
    refine hcompound _ ((consumes_branch hgrammar .ifKw).mono ?_)
    rintro _ _ after - ⟨condition, body, others, rfl, hcondition, hbody,
      hothers⟩
    exact ⟨_, by simp, .branch hcondition hbody hothers⟩
  · next hkind =>
    obtain ⟨more, rfl⟩ := eq_cons_of_firstOf (hfirst.symm.trans hkind) nofun
    exact hcompound _ (consumes_doBlock hgrammar)
  · next hkind =>
    obtain ⟨more, rfl⟩ := eq_cons_of_firstOf (hfirst.symm.trans hkind) nofun
    exact hcompound _ (consumes_loop hgrammar)
  · next hkind =>
    obtain ⟨more, rfl⟩ := eq_cons_of_firstOf (hfirst.symm.trans hkind) nofun
    exact hcompound _ (consumes_attempt hgrammar)
  · next hkind =>
    obtain ⟨more, rfl⟩ := eq_cons_of_firstOf (hfirst.symm.trans hkind) nofun
    exact hcompound _ (consumes_resource hgrammar)
  · next hkind =>
    obtain ⟨more, rfl⟩ := eq_cons_of_firstOf (hfirst.symm.trans hkind) nofun
    exact hcompound _ (consumes_inheritBlock hgrammar)
  · next hkind =>
    obtain ⟨more, rfl⟩ := eq_cons_of_firstOf (hfirst.symm.trans hkind) nofun
    split
    · exact hcompound _ (consumes_funcBlock hgrammar)
    · exact hsmall
  · next name hkind =>
    obtain ⟨more, rfl⟩ := eq_cons_of_firstOf (hfirst.symm.trans hkind) nofun
    split
    · next hstarts =>
      simp only [startsAssignBlock, Bool.and_eq_true, decide_eq_true_eq]
        at hstarts
      obtain ⟨more, rfl⟩ := eq_cons_of_firstOf
        ((hsees.peek_one rfl nofun).symm.trans hstarts.1) nofun
      exact hcompound _ (consumes_assignBlock hgrammar name)
    · exact hsmall
  · exact hsmall

theorem consumes_statement :
    Runs false around base (statement grammar) before fun _ _ after =>
      ∃ stmt middle, before = stmt ++ middle ∧
        Derives .lenient (.statement around.inLoop) stmt ∧
        EndedBefore middle after := by
  refine .look fun _ _ => (consumes_statementForm hgrammar).bind ?_
  rintro program form middle - ⟨stmt, rfl, hstmt⟩
  refine .look fun _ _ => .add (fun _ => Program.grows_addStmt _ _)
    fun _ _ _ => consumes_statementEnd.bind ?_
  intro _ _ after _ hended
  exact runs_pure fun _ _ => ⟨stmt, middle, rfl, hstmt, hended⟩

omit hgrammar in
/-- No statement starts where a list is over. -/
theorem AtEnd.not_startsStmt {kinds : List TokenKind} (hend : AtEnd kinds) :
    (firstOf kinds).startsStmt = false := by
  rcases hend with hend | hend <;> rw [hend] <;> rfl

/-- A list is read up to `stop` or the end.  Where it is over from the start,
nothing is read. -/
theorem consumes_statementsFrom {stop : TokenKind}
    (hstop : stop.hasPayload = false) (rounds : Nat) :
    Runs false around base (statementsFrom grammar stop rounds) before
      fun _ _ after => ∃ stmts, before = stmts ++ after ∧
        Derives .lenient (.statements around.inLoop) stmts ∧
        (firstOf after = stop ∨ firstOf after = .eof) ∧
        (AtEnd before → stmts = []) := by
  induction rounds generalizing base before with
  | zero => exact runs_exhausted
  | succ rounds ih =>
      obtain ⟨gap, hbefore, hgap⟩ := exists_breaks before
      have hover : AtEnd before → before.dropWhile isBreak = before := by
        intro hend
        refine dropWhile_of_firstOf fun hline => ?_
        rcases hend with hend | hend <;> exact nomatch hline.symm.trans hend
      refine .skipNewlines (.check (.check ?_))
      generalize before.dropWhile isBreak = rest at hbefore hover ⊢
      subst hbefore
      split
      · next hends =>
        rw [Bool.or_eq_true, TokenKind.sameVariant_iff hstop,
          TokenKind.sameVariant_iff rfl] at hends
        exact runs_pure fun _ _ => ⟨gap, rfl, .noStatement hgap, hends,
          fun hend => List.append_left_eq_self.mp (hover hend).symm⟩
      · refine (consumes_statement hgrammar).bind ?_
        rintro program stmt after - ⟨kinds, middle, rfl, hkinds, hended⟩
        have hnone : ∀ {stmts : List TokenKind},
            AtEnd (gap ++ (kinds ++ middle)) → stmts = [] := by
          intro stmts hend
          have hfirst := hend.not_startsStmt
          rw [← hover hend, firstOf_append (ne_nil_of_startsStmt hkinds.starts)]
            at hfirst
          exact nomatch hfirst.symm.trans hkinds.starts
        refine ih.bind ?_
        rintro _ others final - ⟨stmts, rfl, hstmts, hends, hempty⟩
        refine runs_pure fun _ _ => ?_
        rcases hended with ⟨last, hlast, rfl⟩ | ⟨rfl, hend⟩
        · exact ⟨_, by simp, .nextStatement last rfl hgap hkinds hlast hstmts,
            hends, hnone⟩
        · -- The list is over where its last statement ends.
          obtain rfl := hempty hend
          exact ⟨_, by simp, .lastStatement rfl hgap hkinds, hends, hnone⟩

omit hgrammar in
theorem block_eq :
    block grammar = within .block (do
      if ← check (.mark .openBrace) then
        let place ← span
        let stmts ← inRegion true do
          let _ ← advance
          statementsFrom grammar (.mark .closeBrace) (← rounds)
        let last ← closing .closeBrace
          fun found => .unclosed (.mark .openBrace) place found
        return ⟨← addStmtList stmts, place.merge last.span⟩
      else
        fault .expectedBlock) := by
  simp only [← closing_bind]
  rfl

theorem consumes_block :
    Runs false around base (block grammar) before fun _ _ after =>
      Consumed (.block around.inLoop) before after := by
  rw [block_eq]
  refine .within _ (.check ?_)
  split
  · next hopen =>
    rw [TokenKind.sameVariant_mark_iff] at hopen
    obtain ⟨inside, rfl⟩ := eq_cons_of_firstOf hopen nofun
    refine .look fun _ _ => ?_
    refine .region rfl rfl rfl (closes_closing _ _)
      (.look fun _ _ => consumes_statementsFrom hgrammar rfl _) nofun ?_
    rintro program stmts after _ - ⟨kinds, rfl, hkinds, -, -⟩
    exact .add (fun _ => Program.grows_addStmtList _ _) fun _ _ _ =>
      runs_pure fun _ _ => ⟨_, by simp, .block hkinds⟩
  · exact runs_fault rfl

theorem consumes_script (hloop : around.inLoop = false) :
    Runs false around base (script grammar) before fun _ _ after =>
      ∃ stmts, before = stmts ++ after ∧
        Derives .lenient (.statements false) stmts ∧ firstOf after = .eof := by
  refine .within _ (.look fun _ _ => .look fun _ _ => ?_)
  refine (consumes_statementsFrom hgrammar rfl _).bind ?_
  rintro program ids after - ⟨stmts, rfl, hstmts, hends, -⟩
  rw [hloop] at hstmts
  exact .look fun _ _ => .add (fun _ => Program.grows_addStmtList _ _)
    fun _ _ _ => runs_pure fun _ _ => ⟨stmts, rfl, hstmts, hends.elim id id⟩

end Statements

end Parse

/-- The rules of every depth consume phrases. -/
theorem grammar_consumes (depth : Nat) : (grammar depth).Consumes := by
  induction depth with
  | zero =>
      exact ⟨fun _ _ _ => Parse.runs_exhausted, fun _ _ _ => Parse.runs_exhausted,
        fun _ _ _ => Parse.runs_exhausted, fun _ _ _ => Parse.runs_exhausted,
        fun _ _ _ _ => Parse.runs_exhausted⟩
  | succ depth ih =>
      exact ⟨fun _ _ _ => Parse.consumes_assignExpr ih,
        fun _ _ _ => Parse.consumes_notExpr ih,
        fun _ _ _ => Parse.consumes_signExpr ih,
        fun _ _ _ => Parse.consumes_block ih,
        fun _ _ word _ => Parse.consumes_branch ih word⟩

theorem sees_start {number : Nat} {tokens : List Token}
    (hlexed : LexedKinds (significantKinds [] tokens)) :
    (ParserState.start number tokens).Sees ⟨[], false⟩
      (significantKinds [] tokens) :=
  ⟨⟨rfl, nofun, rfl, hlexed⟩, rfl⟩

/-- What is parsed is a script of the lenient dialect. -/
theorem derives_of_parse {number : Nat} {tokens : List Token}
    {parsed : ParsedScript} (hlexed : LexedKinds (significantKinds [] tokens))
    (hparse : parse number tokens = .ok parsed) :
    Derives .lenient .script (significantKinds [] tokens) := by
  have hends := Parse.consumes_script (grammar_consumes (tokens.length + 1))
    rfl (.start number tokens) (sees_start hlexed) (.refl _)
  have hrun := (runParser_of_parse hparse).1
  change Parse.EndsWell false _ _ _ (runParser number tokens) at hends
  generalize runParser number tokens = ended at hrun hends
  obtain ⟨outcome, final⟩ := ended
  obtain rfl : outcome = .ok parsed.script := hrun
  obtain ⟨after, hfinal, -, -, stmts, hbefore, hstmts, heof⟩ := hends
  have hafter : after = [.eof] := by
    obtain ⟨front, hfront, -⟩ := hfinal.cursor.lexed.ended
    cases after with
    | nil => simp at hfront
    | cons kind after =>
        obtain rfl : kind = .eof := heof
        rw [hfinal.cursor.lexed.eq_eof]
  rw [hbefore, hafter]
  exact .script hstmts

end ChainScript
