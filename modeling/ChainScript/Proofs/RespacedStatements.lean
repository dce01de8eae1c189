import ChainScript.Proofs.RespacedExpressions

/-
Statements in lists with the same significant tokens.

Line feeds end statements, so blocks are regions where they are significant
again, and no list of statements stands directly inside parentheses or brackets.
-/

namespace ChainScript

open Step

namespace Parse

variable {opened : List Mark} {left right : ParserState}

section Ends

/-- Line feeds end statements only where they are significant, so both runs see
the same ends. -/
theorem follows_statementEnd : Follows statementEnd statementEnd := by
  refine follows_of (@thrifty_statementEnd .exprs 0).steady
    fun opened left right hstep hlive => ?_
  refine FollowsAt.look hstep.cursor.kind_eq ?_
  split
  · next hkind =>
    exact (followsAt_advance hstep hlive (by rw [hkind]; rfl)).bind fun _ =>
      follows_pure _
  · next hkind =>
    exact (followsAt_advance hstep hlive (by rw [hkind]; rfl)).bind fun _ =>
      follows_pure _
  · exact (follows_pure _).follow hstep hlive
  · exact (follows_pure _).follow hstep hlive
  · exact (follows_fault _ _).follow hstep hlive

/-- A word that may stand after line feeds is not a delimiter. -/
theorem isPlain_skipNewlines {cursor : Cursor} {word : Keyword}
    (hword : cursor.peekPastNewlines = .keyword word) :
    cursor.skipNewlines.kind.isPlain = true := by
  rw [cursor.kind_skipNewlines, hword]
  rfl

/-- What comes after the line feeds is the same token in both runs. -/
theorem follows_eatContinuation (word : Keyword) :
    Follows (eatContinuation word) (eatContinuation word) := by
  refine follows_of (@thrifty_eatContinuation .exprs 0 word).steady
    fun opened left right hstep hlive => ?_
  refine FollowsAt.look hstep.cursor.peekPastNewlines_eq ?_
  split
  · next hword =>
    refine (follows_skipNewlines.follow hstep hlive).bindAt (fun _ => ?_) ?_
    · exact steady_advance.bind fun _ => steady_pure _
    · rintro _ after last ⟨⟩ hafter hlive
      exact (followsAt_advance hafter hlive (isPlain_skipNewlines hword)).bind
        fun _ => follows_pure _
  · exact (follows_pure _).follow hstep hlive

/-- The runs are in the same number of loops. -/
theorem followsAt_loopExit (form : StmtKind) (hstep : left.InStep opened right)
    (hlive : ¬ left.cursor.Lost) (hplain : left.cursor.kind.isPlain = true) :
    FollowsAt opened (loopExit form) (loopExit form) left right := by
  have hloops : ParserState.loopDepth right = left.loopDepth := hstep.loopDepth
  have hexit : ∀ state : ParserState, loopExit form state =
      (if state.loopDepth = 0 then fault .outsideLoop
        else do
          let _ ← advance
          return form : Parse StmtKind) state := fun _ => rfl
  refine FollowsAt.congr ?_ (hexit left) (hexit right)
  rw [hloops]
  split
  · exact (follows_fault _ _).follow hstep hlive
  · exact (followsAt_advance hstep hlive hplain).bind fun _ => follows_pure _

theorem follows_branchBlock (form : StmtKind) (span : Span) :
    Follows (branchBlock form span) (branchBlock form span) :=
  (follows_add _).bind fun _ => (follows_add _).bind fun _ => follows_pure _

end Ends

variable {first second : Grammar} (hgrammar : first.Follows second)

include hgrammar

section Small

theorem follows_optionalExpr :
    Follows (optionalExpr first) (optionalExpr second) := by
  refine follows_kind.bind fun kind => ?_
  split
  · exact follows_pure _
  · exact (hgrammar.rule .expr nofun).bind fun _ => follows_pure _

/-- A word of its own decides the form, and what has none is an expression. -/
theorem follows_smallStatement :
    Follows (smallStatement first) (smallStatement second) := by
  refine follows_of (thrifty_smallStatement hgrammar.thrifty).steady
    fun opened left right hstep hlive => ?_
  refine FollowsAt.look hstep.cursor.kind_eq ?_
  split
  · next hkind =>
    refine (followsAt_advance hstep hlive (by rw [hkind]; rfl)).bind fun _ => ?_
    exact (follows_optionalExpr hgrammar).bind fun _ => follows_pure _
  · next hkind =>
    refine (followsAt_advance hstep hlive (by rw [hkind]; rfl)).bind fun _ => ?_
    exact (follows_optionalExpr hgrammar).bind fun _ => follows_pure _
  · next hkind =>
    exact followsAt_loopExit _ hstep hlive (by rw [hkind]; rfl)
  · next hkind =>
    exact followsAt_loopExit _ hstep hlive (by rw [hkind]; rfl)
  · exact ((follows_assignExpr hgrammar).bind fun _ => follows_pure _).follow
      hstep hlive

end Small

section Forms

/-- The rule for a branch is run right at its word, behind the line feeds. -/
theorem follows_otherBranch :
    Follows (otherBranch first) (otherBranch second) := by
  refine follows_of (thrifty_otherBranch hgrammar.thrifty).steady
    fun opened left right hstep hlive => ?_
  refine FollowsAt.look hstep.cursor.peekPastNewlines_eq ?_
  split
  · next hword =>
    have hrest : ∀ start nested, Follows
        (do return some (← branchBlock nested
          (Span.merge start (← previousSpan))))
        (do return some (← branchBlock nested
          (Span.merge start (← previousSpan)))) :=
      fun _ _ => follows_previousSpan.bind fun _ =>
        (follows_branchBlock _ _).bind fun _ => follows_pure _
    refine (follows_skipNewlines.follow hstep hlive).bindAt (fun _ => ?_) ?_
    · exact (steady_look _).bind fun _ =>
        hgrammar.thrifty.branch.uncounted.steady.bind fun _ =>
          (hrest _ _).steady
    · rintro _ after last ⟨⟩ hafter hlive
      refine FollowsAt.look (hafter.cursor.span_eq hlive) ?_
      exact (hgrammar.branch hafter hlive (isPlain_skipNewlines hword)).bind
        fun nested => hrest _ nested
  · refine Follows.follow ?_ hstep hlive
    refine (follows_eatContinuation _).bind fun found => ?_
    split
    · exact (hgrammar.rule .block nofun).bind fun _ => follows_pure _
    · exact follows_pure _

theorem followsAt_branch (hstep : left.InStep opened right)
    (hlive : ¬ left.cursor.Lost) (hplain : left.cursor.kind.isPlain = true) :
    FollowsAt opened (branch first) (branch second) left right := by
  refine (followsAt_advance hstep hlive hplain).bind fun _ => ?_
  refine (follows_assignExpr hgrammar).bind fun _ => ?_
  refine (hgrammar.rule .block nofun).bind fun _ => ?_
  exact (follows_otherBranch hgrammar).bind fun _ => follows_pure _

omit hgrammar in
theorem follows_loopVariables : Follows loopVariables loopVariables := by
  refine follows_expectIdent.bind fun key => ?_
  refine (follows_eat (by rfl)).bind fun comma => ?_
  split
  · exact follows_expectIdent.bind fun _ => follows_pure _
  · exact follows_pure _

theorem followsAt_loop (hstep : left.InStep opened right)
    (hlive : ¬ left.cursor.Lost) (hplain : left.cursor.kind.isPlain = true) :
    FollowsAt opened (loop first) (loop second) left right := by
  refine (followsAt_advance hstep hlive hplain).bind fun _ => ?_
  refine follows_loopVariables.bind ?_
  rintro ⟨key, value⟩
  refine (follows_expect (by rfl)).bind fun _ => ?_
  refine (follows_assignExpr hgrammar).bind fun _ => ?_
  exact (hgrammar.rule .block nofun).inLoop.bind fun _ => follows_pure _

omit hgrammar in
/-- Names after commas, in any numbers of rounds. -/
theorem follows_namesFrom (rounds others : Nat) :
    Follows (namesFrom rounds) (namesFrom others) := by
  induction rounds generalizing others with
  | zero => exact follows_halt _ _
  | succ rounds ih =>
      cases others with
      | zero =>
          have hfirst := (@thrifty_namesFrom .exprs 0 (rounds + 1)).steady
          exact follows_exhausted (hfirst.mono (by omega) (Nat.le_refl 0))
      | succ others =>
          refine (follows_eat (by rfl)).bind fun comma => ?_
          split
          · exact follows_expectIdent.bind fun _ =>
              (ih others).bind fun _ => follows_pure _
          · exact follows_pure _

omit hgrammar in
theorem follows_noNames :
    Follows (Step.read fun state => state.program.noNames : Parse NameRange)
      (Step.read fun state => state.program.noNames) :=
  follows_read fun _ _ hprogram _ => by rw [hprogram]

omit hgrammar in
theorem follows_catchHead : Follows catchHead catchHead := by
  refine (follows_look fun hstep _ => hstep.ident?_eq).bind fun name => ?_
  split
  · exact follows_noNames.bind fun _ => follows_pure _
  · refine follows_span.bind fun place => ?_
    refine follows_expectIdent.bind fun head => ?_
    refine follows_rounds fun rounds others => ?_
    refine (follows_namesFrom rounds others).bind fun names => ?_
    refine (follows_eat (by rfl)).bind fun named => ?_
    split
    · refine follows_expectIdent.bind fun _ => ?_
      exact (follows_add _).bind fun _ => follows_pure _
    · split
      · split
        · exact follows_fail _ _
        · exact follows_noNames.bind fun _ => follows_pure _
      · exact follows_fault _ _

theorem follows_catchClause :
    Follows (catchClause first) (catchClause second) := by
  refine follows_catchHead.bind ?_
  rintro ⟨binding, kinds⟩
  exact (hgrammar.rule .block nofun).bind fun _ => follows_pure _

theorem followsAt_attempt (hstep : left.InStep opened right)
    (hlive : ¬ left.cursor.Lost) (hplain : left.cursor.kind.isPlain = true) :
    FollowsAt opened (attempt first) (attempt second) left right := by
  refine (followsAt_advance hstep hlive hplain).bind fun _ => ?_
  refine (hgrammar.rule .block nofun).bind fun _ => ?_
  refine (follows_eatContinuation _).bind fun found => ?_
  split
  · exact ((follows_catchClause hgrammar).within _).bind fun _ =>
      follows_pure _
  · exact follows_fault _ _

theorem followsAt_resource (hstep : left.InStep opened right)
    (hlive : ¬ left.cursor.Lost) (hplain : left.cursor.kind.isPlain = true) :
    FollowsAt opened (resource first) (resource second) left right := by
  refine (followsAt_advance hstep hlive hplain).bind fun _ => ?_
  refine (follows_assignExpr hgrammar).bind fun acquired => ?_
  refine (follows_eat (by rfl)).bind fun named => ?_
  have hrest : ∀ binding : Option String, Follows
      (do return StmtKind.resource acquired binding (← first .block))
      (do return StmtKind.resource acquired binding (← second .block)) :=
    fun _ => (hgrammar.rule .block nofun).bind fun _ => follows_pure _
  split
  · refine Follows.bind ?_ hrest
    exact follows_expectIdent.bind fun _ => follows_pure _
  · exact (follows_pure none).bind hrest

theorem followsAt_funcBlock (hstep : left.InStep opened right)
    (hlive : ¬ left.cursor.Lost) (hplain : left.cursor.kind.isPlain = true) :
    FollowsAt opened (funcBlock first) (funcBlock second) left right := by
  refine (followsAt_advance hstep hlive hplain).bind fun _ => ?_
  refine follows_expectIdent.bind fun _ => ?_
  exact (follows_functionRest hgrammar _ _).bind fun _ => follows_pure _

theorem followsAt_inheritBlock (hstep : left.InStep opened right)
    (hlive : ¬ left.cursor.Lost) (hplain : left.cursor.kind.isPlain = true) :
    FollowsAt opened (inheritBlock first) (inheritBlock second) left right := by
  refine (followsAt_advance hstep hlive hplain).bind fun _ => ?_
  refine follows_expectIdent.bind fun _ => ?_
  refine (follows_expect (by rfl)).bind fun _ => ?_
  refine follows_expectIdent.bind fun _ => ?_
  exact (hgrammar.rule .block nofun).bind fun _ => follows_pure _

theorem followsAt_doBlock (hstep : left.InStep opened right)
    (hlive : ¬ left.cursor.Lost) (hplain : left.cursor.kind.isPlain = true) :
    FollowsAt opened (doBlock first) (doBlock second) left right := by
  refine (followsAt_advance hstep hlive hplain).bind fun _ => ?_
  exact (hgrammar.rule .block nofun).bind fun _ => follows_pure _

/-- A name bound to a block, in front of the name and an assignment. -/
theorem followsAt_assignBlock (name : String) (hstep : left.InStep opened right)
    (hlive : ¬ left.cursor.Lost) (hkind : left.cursor.kind = .ident name)
    (hassign : left.cursor.peek 1 = .mark .assign) :
    FollowsAt opened (assignBlock first name) (assignBlock second name) left
      right := by
  have hplain : left.cursor.kind.isPlain = true := by rw [hkind]; rfl
  refine (followsAt_advance hstep hlive hplain).bindAt (fun _ => ?_) ?_
  · exact steady_advance.bind fun _ =>
      hgrammar.thrifty.block.uncounted.steady.bind fun _ => steady_pure _
  · rintro _ after last ⟨⟩ hafter hlive
    have hnext : left.cursor.advance.kind = .mark .assign :=
      (hstep.cursor.kind_advance_eq (by rw [hkind]; nofun)).trans hassign
    refine (followsAt_advance hafter hlive (by rw [hnext]; rfl)).bind fun _ => ?_
    exact (hgrammar.rule .block nofun).bind fun _ => follows_pure _

omit hgrammar in
/-- Looking one token ahead of a plain token shows both runs the same. -/
theorem startsFuncBlock_eq {first second : Cursor}
    (hstep : first.InStep opened second) (hplain : first.kind.isPlain = true) :
    startsFuncBlock first = startsFuncBlock second := by
  rw [startsFuncBlock, startsFuncBlock, hstep.peek_one_eq hplain]

omit hgrammar in
/-- The second token ahead counts only behind a sign for an assignment. -/
theorem startsAssignBlock_eq {first second : Cursor}
    (hstep : first.InStep opened second) (hplain : first.kind.isPlain = true) :
    startsAssignBlock first = startsAssignBlock second := by
  have hnext := hstep.peek_one_eq hplain
  rw [startsAssignBlock, startsAssignBlock, ← hnext]
  by_cases hassign : first.peek 1 = .mark .assign
  · -- Only behind a plain token do both see the same second token.
    have htwo : first.peek 2 = second.peek 2 := by
      refine hstep.peek_eq 2 fun k hk => ?_
      obtain rfl | rfl : k = 0 ∨ k = 1 := by omega
      · rw [Cursor.peek_zero hstep.modesLeft hstep.settledLeft]
        exact hplain
      · rw [hassign]
        rfl
    rw [htwo]
  · simp [hassign]

/-- The form is decided by the tokens ahead, which are the same for both runs.
-/
theorem follows_statementForm :
    Follows (statementForm first) (statementForm second) := by
  refine follows_of (thrifty_statementForm hgrammar.thrifty).steady
    fun opened left right hstep hlive => ?_
  have hsmall := (follows_smallStatement hgrammar).follow hstep hlive
  apply FollowsAt.lookEach
  simp only [id]
  rw [← hstep.cursor.kind_eq]
  split
  · next hkind =>
    exact (followsAt_branch hgrammar hstep hlive (by rw [hkind]; rfl)).within _
  · next hkind =>
    exact (followsAt_doBlock hgrammar hstep hlive (by rw [hkind]; rfl)).within _
  · next hkind =>
    exact (followsAt_loop hgrammar hstep hlive (by rw [hkind]; rfl)).within _
  · next hkind =>
    exact (followsAt_attempt hgrammar hstep hlive (by rw [hkind]; rfl)).within _
  · next hkind =>
    exact (followsAt_resource hgrammar hstep hlive
      (by rw [hkind]; rfl)).within _
  · next hkind =>
    exact (followsAt_inheritBlock hgrammar hstep hlive
      (by rw [hkind]; rfl)).within _
  · next hkind =>
    have hplain : left.cursor.kind.isPlain = true := by rw [hkind]; rfl
    simp only [← startsFuncBlock_eq hstep.cursor hplain]
    split
    · exact (followsAt_funcBlock hgrammar hstep hlive hplain).within _
    · exact hsmall
  · next name hkind =>
    have hplain : left.cursor.kind.isPlain = true := by rw [hkind]; rfl
    simp only [← startsAssignBlock_eq hstep.cursor hplain]
    split
    · next hstarts =>
      have hassign : left.cursor.peek 1 = .mark .assign :=
        of_decide_eq_true (Bool.and_eq_true_iff.mp hstarts).1
      exact (followsAt_assignBlock hgrammar name hstep hlive hkind
        hassign).within _
    · exact hsmall
  · exact hsmall

theorem follows_statement : Follows (statement first) (statement second) := by
  refine follows_span.bind fun start => ?_
  refine (follows_statementForm hgrammar).bind fun form => ?_
  refine follows_previousSpan.bind fun last => ?_
  refine (follows_add _).bind fun stmt => ?_
  exact follows_statementEnd.bind fun _ => follows_pure _

theorem follows_statementsFrom (stop : TokenKind) (rounds others : Nat) :
    Follows (statementsFrom first stop rounds)
      (statementsFrom second stop others) := by
  induction rounds generalizing others with
  | zero => exact follows_halt _ _
  | succ rounds ih =>
      cases others with
      | zero =>
          have hfirst := thrifty_statementsFrom hgrammar.thrifty stop
            (rounds + 1)
          exact follows_exhausted
            (hfirst.steady.mono (by omega) (Nat.le_refl 0))
      | succ others =>
          refine follows_skipNewlines.bind fun _ => ?_
          refine (follows_check stop).bind fun stopped => ?_
          refine (follows_check .eof).bind fun ended => ?_
          split
          · exact follows_pure _
          · exact (follows_statement hgrammar).bind fun _ =>
              (ih others).bind fun _ => follows_pure _

/-- A block is a region where line feeds count, whatever it stands in. -/
theorem follows_block : Follows (block first) (block second) := by
  refine follows_of (thrifty_block hgrammar.thrifty).steady
    fun opened left right hstep hlive => ?_
  apply FollowsAt.within
  refine FollowsAt.look (hstep.cursor.check_eq _) ?_
  split
  · next hcheck =>
    have hkind := (TokenKind.sameVariant_mark_iff _ _).mp hcheck
    refine FollowsAt.look (hstep.cursor.span_eq hlive) ?_
    refine followsAt_region hstep hkind rfl rfl ?_ ?_ ?_
    · exact follows_rounds fun rounds others =>
        follows_statementsFrom hgrammar _ rounds others
    · exact fun stmts after last hleaving =>
        followsAt_checkClose hleaving rfl fun _ =>
          (follows_add _).bind fun _ => follows_pure _
    · exact fun _ _ hrest => check_bind_ne_ok rfl hrest
  · exact (follows_fault _ _).follow hstep hlive

theorem follows_script : Follows (script first) (script second) := by
  apply Follows.within
  refine follows_span.bind fun start => ?_
  refine follows_rounds fun rounds others => ?_
  refine (follows_statementsFrom hgrammar _ rounds others).bind fun stmts => ?_
  exact follows_span.bind fun _ => (follows_add _).bind fun _ => follows_pure _

end Forms

end Parse

/-- The grammar follows itself, whatever depths the two runs are allowed. -/
theorem grammar_follows (depth other : Nat) :
    (grammar depth).Follows (grammar other) := by
  induction depth generalizing other with
  | zero =>
      exact ⟨grammar_thrifty _ 0, fun _ _ => Parse.follows_halt _ _,
        fun hstep hlive _ => (Parse.follows_halt _ _).follow hstep hlive⟩
  | succ depth ih =>
      have hthrifty := (grammar_thrifty .exprs (depth + 1)).mono (Nat.zero_le _)
      cases other with
      | zero =>
          have hends : ∀ rule, Parse.Follows (grammar (depth + 1) rule)
              (grammar 0 rule) := fun rule =>
            Parse.follows_exhausted ((hthrifty.steady rule).mono (Nat.le_refl 0)
              (Nat.zero_le 1))
          exact ⟨hthrifty, fun rule _ => hends rule,
            fun hstep hlive _ => (hends .branch).follow hstep hlive⟩
      | succ other =>
          refine ⟨hthrifty, fun rule hrule => ?_, fun hstep hlive hplain =>
            Parse.followsAt_branch (ih other) hstep hlive hplain⟩
          cases rule with
          | expr => exact Parse.follows_assignExpr (ih other)
          | notExpr => exact Parse.follows_notExpr (ih other)
          | signExpr => exact Parse.follows_signExpr (ih other)
          | block => exact Parse.follows_block (ih other)
          | branch => exact absurd rfl hrule

/-- In front of lists with the same significant tokens the parsers are in
step. -/
theorem inStep_start (number : Nat) {tokens others : List Token}
    (hsame : significant [] tokens = significant [] others) :
    (ParserState.start number tokens).InStep []
      (ParserState.start number others) where
  cursor := ⟨⟨rfl, rfl, hsame, rfl⟩, nofun, nofun⟩
  program := rfl
  loopDepth := rfl

/-- Only the significant tokens make a difference to what a parser answers. -/
theorem parse_eq_ok_of_significant_eq {number : Nat}
    {tokens others : List Token} {parsed : ParsedScript}
    (hsame : significant [] tokens = significant [] others)
    (hparsed : parse number tokens = .ok parsed) :
    parse number others = .ok parsed := by
  have hfollows := Parse.follows_script
    (grammar_follows (tokens.length + 1) (others.length + 1))
  have hcounts : ∀ state : ParserState, state.cursor.modes = [] →
      ¬ state.cursor.Lost := by
    rintro state hmodes ⟨-, hcounts⟩
    rw [Cursor.newlinesCount, hmodes] at hcounts
    cases hcounts
  have hmodes := (hfollows.steady (.start number tokens)).modes
  rcases hrun : runParser number tokens with ⟨outcome, state⟩
  rw [parse, hrun] at hparsed
  cases outcome with
  | error error => cases hparsed
  | halted reason => cases hparsed
  | ok script =>
      cases hparsed
      change (runParser number tokens).2.cursor.modes = [] at hmodes
      rw [hrun] at hmodes
      rcases hfollows.follow (inStep_start number hsame) (hcounts _ rfl) script
          state hrun (hcounts state hmodes) with hexhausted | ⟨last, hlast, hstep⟩
      · exact absurd hexhausted (runParser_ne_exhausted number others)
      · have hother : runParser number others = (.ok script, last) := hlast
        rw [parse, hother, ← hstep.program]
        rfl

/-- Line feeds more or less directly inside parentheses or brackets are of no
account: a list of tokens that parses does so after them with the same tables
and the same script, places included. -/
theorem parse_respaced {number : Nat} {tokens others : List Token}
    {parsed : ParsedScript}
    (hrespaced : Relation.ReflTransGen Respaced tokens others)
    (hparsed : parse number tokens = .ok parsed) :
    parse number others = .ok parsed :=
  parse_eq_ok_of_significant_eq (significant_eq_of_respaced hrespaced) hparsed

/-- A token for each kind, one byte wide. -/
def spacedTokens (kinds : List TokenKind) : List Token :=
  kinds.zipIdx.map fun (kind, place) => ⟨kind, ⟨place, place + 1⟩⟩

/-- The tokens of a call of `f` with a function.  The line feed at place 2 is
inside the parentheses of the call, those at 7 and 9 are inside the block. -/
def callWithBlock : List Token :=
  spacedTokens [.ident "f", .mark .openParen, .newline, .keyword .funcKw,
    .mark .openParen, .mark .closeParen, .mark .openBrace, .newline,
    .ident "x", .newline, .mark .closeBrace, .mark .closeParen, .eof]

/-- The same tokens with the line feed of the call behind the block. -/
def callWithBlockRespaced : List Token :=
  callWithBlock.take 2 ++ (callWithBlock.drop 3).take 8 ++
    ⟨.newline, .point 11⟩ :: callWithBlock.drop 11

theorem parse_callWithBlock :
    ∃ parsed, parse 0 callWithBlock = .ok parsed := by
  have hok : (parse 0 callWithBlock).map (fun _ => ()) = .ok () := by
    decide +kernel
  cases hparse : parse 0 callWithBlock with
  | ok parsed => exact ⟨parsed, rfl⟩
  | _ =>
      rw [hparse] at hok
      cases hok

theorem parse_respaced_callWithBlock :
    callWithBlockRespaced ≠ callWithBlock ∧
      ∃ parsed, parse 0 callWithBlock = .ok parsed ∧
        parse 0 callWithBlockRespaced = .ok parsed := by
  obtain ⟨parsed, hparse⟩ := parse_callWithBlock
  have hdeleted : Respaced callWithBlock
      (callWithBlock.take 2 ++ callWithBlock.drop 3) :=
    .delete (callWithBlock.take 2) (callWithBlock.drop 3)
      (rfl : (Token.mk .newline ⟨2, 3⟩).kind = .newline) (by decide)
  have hinserted : Respaced (callWithBlock.take 2 ++ callWithBlock.drop 3)
      callWithBlockRespaced :=
    .insert (callWithBlock.take 2 ++ (callWithBlock.drop 3).take 8)
      (callWithBlock.drop 11)
      (rfl : (Token.mk .newline (.point 11)).kind = .newline) (by decide)
  refine ⟨by decide, parsed, hparse, ?_⟩
  exact parse_respaced (.tail (.single hdeleted) hinserted) hparse

end ChainScript
