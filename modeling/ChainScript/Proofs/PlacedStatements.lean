import ChainScript.Proofs.PlacedExpressions
import ChainScript.Proofs.ThriftyGrammar

/-
Statements and blocks are laid out on their tokens.

A statement begins at its first token and ends at the one that is read off
backwards when its form has been read, before the line feed or semicolon behind
it.  A further branch of a conditional has no braces of its own: its block and
the statement in it cover the same tokens.
-/

namespace ChainScript

open Step

namespace Parse

open ParserState

variable {tokens : List Token} {grammar : Grammar} {before : ParserState}
  {a k depth : Nat}

/-- What ends a statement belongs to none. -/
theorem readsAt_statementEnd :
    ReadsAt tokens statementEnd before fun _ _ => True := by
  refine readsAt_look ?_
  split
  · exact readsAt_advance.bind fun _ _ _ _ => readsAt_pure trivial
  · exact readsAt_advance.bind fun _ _ _ _ => readsAt_pure trivial
  · exact readsAt_pure trivial
  · exact readsAt_pure trivial
  · exact readsAt_fault _

/-- A word that may stand after line feeds. -/
theorem isVisible_skipNewlines {cursor : Cursor} {word : Keyword}
    (hword : cursor.peekPastNewlines = .keyword word) :
    cursor.skipNewlines.kind.isVisible = true := by
  rw [cursor.kind_skipNewlines, hword]
  rfl

theorem isVisible_of_ne {kind : TokenKind} (hline : kind ≠ .newline)
    (hend : kind ≠ .eof) : kind.isVisible = true := by
  cases kind <;> first | rfl | contradiction

/-- The word is consumed last, or nothing is. -/
theorem readsAt_eatContinuation {word : Keyword}
    (hlanded : before.cursor.Landed) :
    ReadsAt tokens (eatContinuation word) before fun _ after =>
      after.cursor.Landed := by
  refine readsAt_look ?_
  split
  · next hword =>
      refine readsAt_skipNewlines.bind ?_
      rintro _ _ _ rfl
      refine (readsAt_token (isVisible_skipNewlines hword)).bind ?_
      exact fun _ _ _ htoken => readsAt_pure htoken.landed
  · exact readsAt_pure hlanded

/-- The word is all that an exit consists of. -/
theorem readsForm_loopExit {form : StmtKind} (hrefs : form.refs = [])
    (hvisible : before.cursor.kind.isVisible = true) :
    ReadsForm tokens (loopExit form) before := by
  refine readsAt_read ?_
  split
  · exact readsAt_fault _
  · refine (readsAt_token hvisible).bind fun _ _ _ htoken => ?_
    refine readsAt_pure ⟨?_, htoken.landed⟩
    rw [hrefs]
    exact .nil (Nat.le_of_lt htoken.pos_lt)

/-- The block of a single statement. -/
theorem readsAt_branchBlock {form : StmtKind} {j : Nat} {span : Span}
    (hcovers : before.Covers tokens k j span form.refs) (hle : a ≤ k) :
    ReadsAt tokens (branchBlock form span) before fun body after =>
      after.HasRead tokens a [.part (.block body)] := by
  refine (readsAt_add (Program.grows_addStmt _ _)).bind ?_
  rintro id added _ ⟨rfl, rfl⟩
  have hstmt : Placed tokens _ k (j + 1) ([_].map .stmt) :=
    .addStmt (Nat.le_refl k) (Nat.lt_succ_self j) hcovers.from_ hcovers.placed
  refine (readsAt_add (Program.grows_addStmtList _ _)).bind ?_
  rintro _ _ _ ⟨rfl, rfl⟩
  have hblock := Placed.addStmtList hstmt
  exact readsAt_pure ⟨.node hle hcovers.lt_pos hcovers.from_ hblock,
    hcovers.landed⟩

theorem readsAt_loopVariables :
    ReadsAt tokens loopVariables before fun _ _ => True := by
  refine readsAt_expectIdent.bind fun first middle _ _ => ?_
  refine (readsAt_eat rfl).bind fun found after _ _ => ?_
  split
  · exact readsAt_expectIdent.bind fun _ _ _ _ => readsAt_pure trivial
  · exact readsAt_pure trivial

/-- Names have no places of their own. -/
theorem readsAt_namesFrom (rounds : Nat) :
    ReadsAt tokens (namesFrom rounds) before fun _ _ => True := by
  induction rounds generalizing before with
  | zero => exact readsAt_halt _
  | succ rounds ih =>
      refine (readsAt_eat rfl).bind fun found middle _ _ => ?_
      split
      · refine readsAt_expectIdent.bind fun name after _ _ => ?_
        exact ih.bind fun _ _ _ _ => readsAt_pure trivial
      · exact readsAt_pure trivial

/-- The names of a clause stand in front of its block, which is all that has a
place. -/
theorem readsAt_catchHead :
    ReadsAt tokens catchHead before fun _ _ => True := by
  refine readsAt_look ?_
  split
  · exact readsAt_read (readsAt_pure trivial)
  · refine readsAt_look ?_
    refine readsAt_expectIdent.bind fun first middle _ _ => ?_
    refine readsAt_look ?_
    refine (readsAt_namesFrom _).bind fun others after _ _ => ?_
    refine (readsAt_eat rfl).bind fun found final _ _ => ?_
    split
    · refine readsAt_expectIdent.bind fun binding last _ _ => ?_
      exact (readsAt_add (Program.grows_addNames _ _)).bind fun _ _ _ _ =>
        readsAt_pure trivial
    · split
      · split
        · exact readsAt_faultAt _ _
        · exact readsAt_read (readsAt_pure trivial)
      · exact readsAt_fault _

section Forms

variable (hgrammar : GrammarReads tokens grammar)

include hgrammar

theorem readsAt_optionalExpr (hlanded : before.cursor.Landed) :
    ReadsAt tokens (optionalExpr grammar) before fun value after =>
      after.HasRead tokens before.cursor.pos (value.toList.map .expr) := by
  refine readsAt_look ?_
  split
  · exact readsAt_pure ⟨.nil (Nat.le_refl _), hlanded⟩
  · exact (hgrammar.expr before).bind fun _ _ _ hvalue => readsAt_pure hvalue

theorem readsAt_catchClause :
    ReadsAt tokens (catchClause grammar) before fun clause after =>
      after.HasRead tokens before.cursor.pos [.part (.block clause.body)] :=
  readsAt_catchHead.skip fun _ middle _ =>
    (hgrammar.block middle).bind fun _ _ _ hbody => readsAt_pure hbody

/-- The clause comes after the block that it recovers. -/
theorem readsForm_attempt : ReadsForm tokens (attempt grammar) before := by
  refine readsAt_advance.skip fun _ opened _ => ?_
  refine (hgrammar.block opened).bind fun body middle _ hbody => ?_
  refine (readsAt_eatContinuation hbody.landed).bind ?_
  intro found behind hreads _
  split
  · exact ((readsAt_catchClause hgrammar).within _).andThen
      (hbody.placed.reads hreads) fun _ _ _ hboth => readsAt_pure hboth
  · exact readsAt_fault _

theorem readsForm_inheritBlock :
    ReadsForm tokens (inheritBlock grammar) before :=
  readsAt_advance.skip fun _ _ _ =>
    readsAt_expectIdent.skip fun _ _ _ =>
      (readsAt_expect rfl).skip fun _ _ _ =>
        readsAt_expectIdent.skip fun _ middle _ =>
          (hgrammar.block middle).bind fun _ _ _ hbody => readsAt_pure hbody

theorem readsForm_assignBlock (name : String) :
    ReadsForm tokens (assignBlock grammar name) before :=
  readsAt_advance.skip fun _ _ _ =>
    readsAt_advance.skip fun _ middle _ =>
      (hgrammar.block middle).bind fun _ _ _ hbody => readsAt_pure hbody

theorem readsForm_doBlock : ReadsForm tokens (doBlock grammar) before :=
  readsAt_advance.skip fun _ middle _ =>
    (hgrammar.block middle).bind fun _ _ _ hbody => readsAt_pure hbody

variable (hordered : OrderedTokens tokens)

include hordered

theorem readsForm_smallStatement
    (hvisible : before.cursor.kind.isVisible = true) :
    ReadsForm tokens (smallStatement grammar) before := by
  have hoptional : ∀ form : Option ExprId → StmtKind,
      (∀ value, (form value).refs = value.toList.map .expr) →
      ReadsForm tokens (do
        let _ ← advance
        return form (← optionalExpr grammar)) before := by
    intro form hrefs
    refine (readsAt_token hvisible).skip fun _ middle htoken => ?_
    refine (readsAt_optionalExpr hgrammar htoken.landed).bind ?_
    intro value after _ hvalue
    exact readsAt_pure (hrefs value ▸ hvalue)
  refine readsAt_look ?_
  split
  · exact hoptional .return fun _ => rfl
  · exact hoptional .raise fun _ => rfl
  · exact readsForm_loopExit rfl hvisible
  · exact readsForm_loopExit rfl hvisible
  · exact (reads_assignExpr hordered hgrammar before).bind
      fun _ _ _ hvalue => readsAt_pure hvalue

theorem readsForm_loop : ReadsForm tokens (loop grammar) before := by
  refine readsAt_advance.skip fun _ _ _ => ?_
  refine readsAt_loopVariables.skip fun names _ _ => ?_
  refine (readsAt_expect rfl).skip fun _ opened _ => ?_
  refine (reads_assignExpr hordered hgrammar opened).bind ?_
  intro iterated middle _ hiterated
  exact (hgrammar.block.inLoop middle).andThen hiterated.placed
    fun _ _ _ hboth => readsAt_pure hboth

/-- The block comes after what is acquired, and after its name if there is one.
-/
theorem readsForm_resource : ReadsForm tokens (resource grammar) before := by
  refine readsAt_advance.skip fun _ opened _ => ?_
  refine (reads_assignExpr hordered hgrammar opened).bind ?_
  intro acquired middle _ hacquired
  refine (readsAt_eat rfl).bind fun named behind hreads _ => ?_
  have hplaced := hacquired.placed.reads hreads
  have hrest : ∀ (binding : Option String) (inner : ParserState),
      ReadsTo tokens behind inner →
      ReadsAt tokens (do
        return StmtKind.resource acquired binding (← grammar .block)) inner
        fun form after => after.HasRead tokens opened.cursor.pos form.refs :=
    fun _ inner hinner => (hgrammar.block inner).andThen (hplaced.reads hinner)
      fun _ _ _ hboth => readsAt_pure hboth
  dsimp only
  split
  · have hname : ReadsAt tokens (some <$> expectIdent) behind
        fun _ _ => True :=
      readsAt_expectIdent.bind fun _ _ _ _ => readsAt_pure trivial
    exact hname.bind fun binding inner hinner _ => hrest binding inner hinner
  · exact hrest none behind (.refl hreads.tokens_eq)

theorem readsForm_funcBlock (hvisible : before.cursor.kind.isVisible = true) :
    ReadsForm tokens (funcBlock grammar) before := by
  refine (readsAt_token hvisible).bind fun token middle _ htoken => ?_
  refine readsAt_expectIdent.bind fun name opened hreads _ => ?_
  have hlt := Nat.lt_of_lt_of_le htoken.pos_lt hreads.pos_le
  exact (readsAt_functionRest hordered hgrammar htoken.from_ hlt).bind
    fun _ _ _ hfunc => readsAt_pure hfunc

variable (hthrifty : grammar.Thrifty .exprs depth)

include hthrifty

/-- A further condition begins at its own word, and the place of its block is
that of its statement. -/
theorem readsAt_otherBranch (hlanded : before.cursor.Landed) :
    ReadsAt tokens (otherBranch grammar) before fun block after =>
      after.HasRead tokens before.cursor.pos
        (block.toList.map fun body => .part (.block body)) := by
  refine readsAt_look ?_
  split
  · next hword =>
      refine readsAt_skipNewlines.bind ?_
      rintro _ middle hreads rfl
      have hvisible := isVisible_skipNewlines hword
      refine readsAt_current hvisible fun hfrom => ?_
      refine readsAt_look ?_
      refine ((hgrammar.branch _ hvisible).consumes
        (hthrifty.branch.steady _)).bind ?_
      rintro nested after _ ⟨hlt, hnested⟩
      refine readsAt_previousSpan_bind hordered hnested hfrom hlt ?_
      intro last e hcovers
      exact (readsAt_branchBlock hcovers hreads.pos_le).bind
        fun _ _ _ hbody => readsAt_pure hbody
  · refine (readsAt_eatContinuation hlanded).bind ?_
    intro found middle hreads hlanded'
    split
    · exact (hgrammar.block middle).bind fun _ _ _ hbody =>
        readsAt_pure (hbody.mono hreads.pos_le)
    · exact readsAt_pure ⟨.nil hreads.pos_le, hlanded'⟩

theorem readsForm_branch : ReadsForm tokens (branch grammar) before := by
  refine readsAt_advance.skip fun _ opened _ => ?_
  refine (reads_assignExpr hordered hgrammar opened).bind ?_
  intro condition middle _ hcondition
  refine (hgrammar.block middle).andThen hcondition.placed ?_
  intro body after _ hboth
  exact (readsAt_otherBranch hgrammar hordered hthrifty hboth.landed).andThen
    hboth.placed fun _ _ _ hall => readsAt_pure hall

/-- Each form reads its parts in order. -/
theorem readsForm_statementForm
    (hvisible : before.cursor.kind.isVisible = true) :
    ReadsForm tokens (statementForm grammar) before := by
  refine readsAt_look ?_
  dsimp only [id]
  split
  · exact (readsForm_branch hgrammar hordered hthrifty).within _
  · exact (readsForm_doBlock hgrammar).within _
  · exact (readsForm_loop hgrammar hordered).within _
  · exact (readsForm_attempt hgrammar).within _
  · exact (readsForm_resource hgrammar hordered).within _
  · exact (readsForm_inheritBlock hgrammar).within _
  · split
    · exact (readsForm_funcBlock hgrammar hordered hvisible).within _
    · exact readsForm_smallStatement hgrammar hordered hvisible
  · split
    · exact (readsForm_assignBlock hgrammar _).within _
    · exact readsForm_smallStatement hgrammar hordered hvisible
  · exact readsForm_smallStatement hgrammar hordered hvisible

/-- The place of a statement ends with the last token of its form, before its
end. -/
theorem readsAt_statement (hvisible : before.cursor.kind.isVisible = true) :
    ReadsAt tokens (statement grammar) before fun id after =>
      Placed tokens after.program before.cursor.pos after.cursor.pos
        [.stmt id] := by
  refine readsAt_current hvisible fun hfrom => ?_
  refine readsAt_look ?_
  refine ((readsForm_statementForm hgrammar hordered hthrifty hvisible).consumes
    (thrifty_statementForm hthrifty before).steady).bind ?_
  rintro form middle _ ⟨hlt, hform⟩
  refine readsAt_previousSpan_bind hordered hform hfrom hlt ?_
  intro last e hcovers
  refine (readsAt_addStmt hcovers (Nat.le_refl _)).bind ?_
  intro id after _ hstmt
  exact readsAt_statementEnd.bind fun _ _ hreads _ =>
    readsAt_pure (hstmt.placed.reads hreads)

theorem places_statementsFrom (stop : TokenKind) (rounds : Nat) :
    Places tokens (List.map .stmt) (statementsFrom grammar stop rounds) := by
  induction rounds with
  | zero => exact fun _ => readsAt_halt _
  | succ rounds ih =>
      intro before
      refine readsAt_skipNewlines.bind ?_
      rintro _ middle hskip rfl
      refine readsAt_look (readsAt_look ?_)
      split
      · exact readsAt_pure (.nil hskip.pos_le)
      · next hgoes =>
          -- What goes on is neither a line feed nor the end of the text.
          have hend : before.cursor.skipNewlines.kind ≠ .eof := by
            intro heof
            simp [Cursor.check, heof, TokenKind.sameVariant] at hgoes
          have hvisible := isVisible_of_ne before.cursor.kind_skipNewlines_ne
            hend
          refine (readsAt_statement hgrammar hordered hthrifty hvisible).bind ?_
          intro first after hreads hfirst
          refine (ih after).bind fun others final hreads' hothers => ?_
          have hplaced := (hfirst.grows hreads'.grows).append hothers
          exact readsAt_pure (hplaced.mono hskip.pos_le (Nat.le_refl _))

/-- The statements of a block stand between its braces. -/
theorem reads_block :
    Reads tokens (fun body => [.part (.block body)]) (block grammar) := by
  intro before
  refine ReadsAt.within ?_ _
  refine readsAt_look ?_
  split
  · next hopen =>
      have hvisible := isVisible_of_check rfl hopen
      refine readsAt_current hvisible fun hfrom => ?_
      refine readsAt_look ?_
      refine (readsAt_opened hvisible (places_rounds_bind fun rounds =>
        places_statementsFrom hgrammar hordered hthrifty _ rounds)).bind ?_
      rintro stmts middle _ ⟨hlt, hstmts⟩
      refine readsAt_look ?_
      split
      · next hclose =>
          refine (readsAt_token (isVisible_of_check rfl hclose)).bind ?_
          intro last after hreads hlast
          refine (readsAt_add (Program.grows_addStmtList _ _)).bind ?_
          rintro _ _ _ ⟨rfl, rfl⟩
          have hle := Nat.le_of_lt hlt
          have hspan := hfrom.merge hordered hlast.from_ hle hle
          have hplaced := Placed.addStmtList ((hstmts.grows hreads.grows).mono
            (Nat.le_succ _) (Nat.le_succ _))
          exact readsAt_pure ⟨.node (Nat.le_refl _) hlast.pos_lt hspan hplaced,
            hlast.landed⟩
      · exact readsAt_fault _
  · exact readsAt_fault _

end Forms

end Parse

/-- The grammar reads what it refers to, at any depth. -/
theorem grammar_reads {tokens : List Token} (hordered : OrderedTokens tokens)
    (depth : Nat) : Parse.GrammarReads tokens (grammar depth) := by
  induction depth with
  | zero =>
      exact ⟨fun _ => Parse.readsAt_halt _, fun _ => Parse.readsAt_halt _,
        fun _ => Parse.readsAt_halt _, fun _ => Parse.readsAt_halt _,
        fun _ _ => Parse.readsAt_halt _⟩
  | succ depth ih =>
      have hthrifty := grammar_thrifty .exprs depth
      exact {
        expr := Parse.reads_assignExpr hordered ih
        notExpr := Parse.reads_notExpr hordered ih
        signExpr := Parse.reads_signExpr hordered ih
        block := Parse.reads_block ih hordered hthrifty
        branch := fun _ _ => Parse.readsForm_branch ih hordered hthrifty }

end ChainScript
