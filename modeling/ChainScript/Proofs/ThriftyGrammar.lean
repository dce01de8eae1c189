import ChainScript.Proofs.ThriftySteps

/-
The grammar is thrifty.

The rules that a rule refers back to may be allowed one level less of depth
than the rule itself, because a token has been consumed before each reference
back.  A loop of the parser consumes a token in each round.  A block leaves one
token unspent, and what becomes a row of its own leaves what that row does not
cost.
-/

namespace ChainScript

open Step

/-- Parsers for the rules that are thrifty and consume a token. -/
structure Grammar.Thrifty (table : Table) (depth : Nat) (grammar : Grammar) :
    Prop where
  expr : Parse.Thrifty table depth 1 0 (grammar .expr) fun _ => table.spare
  notExpr :
    Parse.Thrifty table depth 1 0 (grammar .notExpr) fun _ => table.spare
  signExpr :
    Parse.Thrifty table depth 1 0 (grammar .signExpr) fun _ => table.spare
  block : Parse.Thrifty table depth 1 0 (grammar .block) fun _ => 1
  branch : Parse.Thrifty table depth 1 0 (grammar .branch) fun _ => table.spare

theorem Grammar.Thrifty.mono {table : Table} {depth less : Nat}
    {grammar : Grammar} (hgrammar : grammar.Thrifty table depth)
    (hdepth : less ≤ depth) : grammar.Thrifty table less where
  expr := hgrammar.expr.weaken hdepth (Nat.le_refl 1)
  notExpr := hgrammar.notExpr.weaken hdepth (Nat.le_refl 1)
  signExpr := hgrammar.signExpr.weaken hdepth (Nat.le_refl 1)
  block := hgrammar.block.weaken hdepth (Nat.le_refl 1)
  branch := hgrammar.branch.weaken hdepth (Nat.le_refl 1)

/-- Whatever the credit of a rule, a token is consumed for it. -/
theorem Grammar.Thrifty.steady {table : Table} {depth : Nat}
    {grammar : Grammar} (hgrammar : grammar.Thrifty table depth)
    (rule : Rule) : Parse.Steady depth 1 (grammar rule) := by
  cases rule with
  | expr => exact hgrammar.expr.steady
  | notExpr => exact hgrammar.notExpr.steady
  | signExpr => exact hgrammar.signExpr.steady
  | block => exact hgrammar.block.steady
  | branch => exact hgrammar.branch.steady

namespace Parse

variable {table : Table} {depth count funds : Nat} {state : ParserState}

section Expressions

/-- The operator pays for the row, and what is left of it is the credit. -/
theorem thrifty_addJoined (join : ExprId → ExprId → ExprKind)
    (left right : ExprId) (hfunds : 1 ≤ funds) :
    Thrifty table depth 0 funds (addJoined join left right)
      fun _ => table.spare :=
  (thrifty_spanOf left).bind fun _ => (thrifty_spanOf right).bind fun _ =>
    thrifty_addExpr _ _ hfunds

theorem thrifty_addUnary (op : UnaryOp) (start : Span) (operand : ExprId)
    (hfunds : 1 ≤ funds) :
    Thrifty table depth 0 funds (addUnary op start operand)
      fun _ => table.spare :=
  (thrifty_spanOf operand).bind fun _ => thrifty_addExpr _ _ hfunds

/-- Each round consumes the operator and an operand. The operand's credit and
the operator are more than the row of the two costs. -/
theorem thrifty_chainFrom {joiner : Joiner} (heof : joiner .eof = none)
    {operand : Parse ExprId}
    (hoperand : Thrifty table depth 1 0 operand fun _ => table.spare)
    (rounds : Nat) (left : ExprId) :
    Thrifty table (min depth rounds) 0 table.spare
      (chainFrom joiner operand rounds left) fun _ => table.spare := by
  induction rounds generalizing left with
  | zero => exact thrifty_halt _ (Nat.min_zero depth)
  | succ rounds ih =>
      intro state
      apply thriftyAt_look_bind
      cases hjoin : joiner state.cursor.kind with
      | none => exact thrifty_keep state
      | some join =>
          have hkind := state.cursor.kind_ne_of_some heof hjoin
          refine (thriftyAt_advance (.one hkind)).andThen fun _ => ?_
          refine (hoperand.weaken (by omega) (Nat.le_refl 1)).bind
            fun right => ?_
          refine (thrifty_addJoined join left right (Nat.le_refl 1)).spend
            (by omega) fun joined => ?_
          exact ((ih joined).weaken (by omega) (Nat.zero_le _)).mono (by omega)
            fun _ => by omega

/-- A chain consumes what its first operand does. -/
theorem thrifty_chain {joiner : Joiner} (heof : joiner .eof = none)
    {operand : Parse ExprId}
    (hoperand : Thrifty table depth 1 0 operand fun _ => table.spare) :
    Thrifty table depth 1 0 (chain joiner operand) fun _ => table.spare :=
  hoperand.bind fun first => thrifty_rounds_bind fun rounds =>
    ((thrifty_chainFrom heof hoperand rounds first).weaken (by omega)
      (Nat.le_refl 0)).mono (by omega) fun _ => by omega

variable {grammar : Grammar} (hgrammar : grammar.Thrifty table depth)

include hgrammar

/-- An entry has the credit of its value, or that of the name that it expands.
-/
theorem thrifty_entry :
    Thrifty table depth 1 0 (entry grammar) fun _ => table.spare := by
  have hspare := table.spare_le
  intro state
  apply thriftyAt_look_bind
  refine thriftyAt_eat_bind (by rfl) ?_ ?_
  · exact thrifty_expectIdent.bind fun name =>
      (thrifty_look _).bind fun _ => thrifty_pure (by omega)
  · apply thriftyAt_look_bind
    apply thriftyAt_look_bind
    split
    · refine (thrifty_advance _).andThen fun _ => ?_
      refine thrifty_advance.bind fun _ => ?_
      exact hgrammar.expr.bind fun value =>
        (thrifty_spanOf value).bind fun _ => thrifty_pure (by omega)
    · exact (hgrammar.expr _).andThen fun value =>
        (thrifty_spanOf value).bind fun _ => thrifty_pure (by omega)

/-- The entries leave enough for a row each. -/
theorem thrifty_entriesFrom (opener : TokenKind) (place : Span)
    (close : TokenKind) (rounds : Nat) (comma : Bool) :
    Thrifty table (min depth rounds) 0 0
      (entriesFrom grammar opener place close rounds comma)
      fun result => table.price .entries result.1.length := by
  induction rounds generalizing comma with
  | zero => exact thrifty_halt _ (Nat.min_zero depth)
  | succ rounds ih =>
      refine (thrifty_look _).bind fun closed => ?_
      split
      · exact thrifty_pure (by simp [Table.price])
      · refine ((thrifty_entry hgrammar).weaken (by omega)
          (Nat.le_refl 1)).bind fun first => ?_
        refine (thrifty_eat _).bind fun comma => ?_
        refine (thrifty_look _).bind fun last => ?_
        split
        · exact thrifty_fault _
        · refine ((ih comma).weaken (by omega) (Nat.zero_le _)).bind ?_
          rintro ⟨others, last⟩
          have hprice := table.price_entries_succ_le others.length
          exact thrifty_pure (by simp only [List.length_cons]; omega)

/-- A list between delimiters, in front of what should be its opener. -/
theorem thriftyAt_delimited (opener : TokenKind) {close : TokenKind} {n : Nat}
    (hopener : state.cursor.kind.Yields count) (hclose : close.Yields n) :
    ThriftyAt table (depth + count) count 0 (delimited grammar opener close)
      (fun result => table.price .entries result.1.length + n) state := by
  apply thriftyAt_look_bind
  refine ThriftyAt.followedBy (.enter hopener fun _ =>
    thrifty_rounds_bind fun rounds =>
      thrifty_entriesFrom hgrammar _ _ _ rounds _) ?_
  rintro ⟨entries, comma⟩
  exact (thrifty_expect hclose).uncounted.bind fun last =>
    thrifty_pure (by dsimp only; omega)

theorem thriftyAt_arrayLiteral (hopener : state.cursor.kind.Yields count) :
    ThriftyAt table (depth + count) count 0 (arrayLiteral grammar)
      (fun _ => table.spare) state := by
  apply ThriftyAt.within
  have hclose : (TokenKind.mark .closeBracket).Yields 1 := .one nofun
  refine (thriftyAt_delimited hgrammar _ hopener hclose).followedBy ?_
  rintro ⟨entries, comma, span⟩
  dsimp only
  exact (thrifty_addEntries entries).spend (by omega) fun _ =>
    thrifty_addExpr _ span (by omega)

/-- A group adds no row, so that its delimiters are not needed. -/
theorem thriftyAt_parenthesised (hopener : state.cursor.kind.Yields count) :
    ThriftyAt table (depth + count) count 0 (parenthesised grammar)
      (fun _ => table.spare) state := by
  have hspare := table.spare_le
  have hclose : (TokenKind.mark .closeParen).Yields 1 := .one nofun
  refine ((thriftyAt_delimited hgrammar _ hopener hclose).within
    _).followedBy ?_
  rintro ⟨entries, comma, span⟩
  dsimp only
  split
  · exact thrifty_pure (by omega)
  · exact (thrifty_addEntries entries).spend (by omega) fun _ =>
      thrifty_addExpr _ span (by omega)

omit hgrammar in
/-- The key pays. The sign in front of it is taken as read, whatever it is. -/
theorem thrifty_badge :
    Thrifty table depth 1 0 badge fun _ => table.spare := by
  refine thrifty_advance.bind fun start state => ?_
  apply thriftyAt_look_bind
  rw [Cursor.kind_current]
  cases hkey : keyOf? state.cursor.kind with
  | none => exact thrifty_fault _ state
  | some key =>
      have hkind := state.cursor.kind_ne_of_some rfl hkey
      exact (thriftyAt_advance (.one hkind)).andThen fun _ =>
        thrifty_addExpr _ _ (by omega)

/-- A default is not counted, since there may be none. -/
theorem thrifty_default? :
    Thrifty table depth 0 0 (default? grammar) fun _ => 0 :=
  (thrifty_eat _).bind fun written => by
    split
    · exact hgrammar.expr.uncounted.bind fun _ => thrifty_pure (Nat.zero_le _)
    · exact thrifty_pure (Nat.zero_le _)

theorem thrifty_param :
    Thrifty table depth 1 0 (param grammar) fun _ => 1 := by
  refine (thrifty_look _).bind fun start => ?_
  refine (thrifty_eat _).bind fun rest => ?_
  refine thrifty_expectIdent.bind fun name => ?_
  split
  · rw [Step.pure_bind]
    exact (thrifty_look _).bind fun _ => thrifty_pure (by omega)
  · refine ((thrifty_default? hgrammar).weaken (by omega)
      (Nat.le_refl 0)).bind fun _ => ?_
    exact (thrifty_look _).bind fun _ => thrifty_pure (by omega)

/-- The parameters leave enough for a row each. -/
theorem thrifty_paramsFrom (place : Span) (rounds : Nat) :
    Thrifty table (min depth rounds) 0 0 (paramsFrom grammar place rounds)
      fun params => table.price .params params.length := by
  induction rounds with
  | zero => exact thrifty_halt _ (Nat.min_zero depth)
  | succ rounds ih =>
      refine (thrifty_look _).bind fun closed => ?_
      split
      · exact thrifty_pure (by simp [Table.price])
      · refine ((thrifty_param hgrammar).weaken (by omega)
          (Nat.le_refl 1)).bind fun first => ?_
        refine (thrifty_look _).bind fun last => ?_
        split
        · exact thrifty_fault _
        · refine (thrifty_eat _).bind fun comma => ?_
          split
          · exact thrifty_fault _
          · refine (ih.weaken (by omega) (Nat.zero_le _)).bind fun others => ?_
            have hprice := table.price_succ_le .params others.length
            exact thrifty_pure (by simp only [List.length_cons]; omega)

/-- The two parentheses are left over. -/
theorem thrifty_params :
    Thrifty table (depth + 1) 1 0 (params grammar) fun params =>
      table.price .params params.length + 2 := by
  have hopen : (TokenKind.mark .openParen).Yields 1 := .one nofun
  have hclose : (TokenKind.mark .closeParen).Yields 1 := .one nofun
  refine (thrifty_look _).bind fun place => ?_
  refine (thrifty_expect hopen).bind fun _ => ?_
  refine Thrifty.bind (n := 0) (Thrifty.inRegion (thrifty_rounds_bind
    fun rounds => thrifty_paramsFrom hgrammar _ rounds)) fun params => ?_
  exact (thrifty_expect hclose).bind fun _ => thrifty_pure (by omega)

/-- The parentheses and the block leave enough for the row of the function and
one more token. -/
theorem thrifty_functionRest (name : String) (start : Span) :
    Thrifty table (depth + 1) 1 0 (functionRest grammar name start)
      fun _ => 1 := by
  have hprice : table.price .funcs 1 ≤ 1 := by
    cases table <;> decide
  refine ((thrifty_params hgrammar).within _).bind fun params => ?_
  refine hgrammar.block.uncounted.inFunction.bind fun body => ?_
  refine (thrifty_addParams params).spend (by omega) fun range => ?_
  exact (thrifty_addFunc _).mono (by omega) fun _ => by omega

theorem thrifty_functionExpr :
    Thrifty table (depth + 1) 1 0 (functionExpr grammar)
      fun _ => table.spare := by
  apply Thrifty.within
  refine thrifty_advance.bind fun _ => ?_
  refine (thrifty_functionRest hgrammar _ _).bind fun _ => ?_
  exact (thrifty_look _).bind fun _ => thrifty_addExpr _ _ (by omega)

/-- Each form of an atom consumes the token that it is told by. -/
theorem thrifty_atom :
    Thrifty table (depth + 1) 1 0 (atom grammar) fun _ => table.spare := by
  intro state
  apply thriftyAt_look_bind
  split
  · exact thrifty_badge state
  · next hkind =>
    exact thriftyAt_arrayLiteral hgrammar (.one (by rw [hkind]; nofun))
  · next hkind =>
    exact thriftyAt_parenthesised hgrammar (.one (by rw [hkind]; nofun))
  · exact thrifty_functionExpr hgrammar state
  · split
    · exact thrifty_fault _ state
    · next simple hsimple =>
      have hkind := state.cursor.kind_ne_of_some rfl hsimple
      exact (thriftyAt_advance (.one hkind)).andThen fun _ =>
        thrifty_addExpr _ _ (by omega)

/-- In front of what should be the opener of the arguments. -/
theorem thriftyAt_call (callee : ExprId)
    (hopener : state.cursor.kind.Yields count) :
    ThriftyAt table (depth + count) count 0 (call grammar callee)
      (fun _ => table.spare) state := by
  apply ThriftyAt.within
  have hclose : (TokenKind.mark .closeParen).Yields 1 := .one nofun
  refine (thriftyAt_delimited hgrammar _ hopener hclose).followedBy ?_
  rintro ⟨entries, comma, span⟩
  dsimp only
  refine (thrifty_addEntries entries).spend (by omega) fun _ => ?_
  exact (thrifty_spanOf callee).bind fun _ => thrifty_addExpr _ _ (by omega)

omit hgrammar in
theorem thrifty_member (receiver : ExprId) :
    Thrifty table depth 1 0 (member receiver) fun _ => table.spare := by
  apply Thrifty.within
  refine thrifty_advance.bind fun _ state => ?_
  apply thriftyAt_look_bind
  dsimp only
  split
  · exact thrifty_fault _ state
  · next key hkey =>
    have hkind : state.cursor.kind ≠ .eof := by
      intro heof
      rw [Cursor.kind_current, heof] at hkey
      cases hkey
    refine (thriftyAt_advance (.one hkind)).andThen fun _ => ?_
    exact (thrifty_spanOf receiver).bind fun _ =>
      thrifty_addExpr _ _ (by omega)

/-- In front of what should be the opener of the key. -/
theorem thriftyAt_index (receiver : ExprId)
    (hopener : state.cursor.kind.Yields count) :
    ThriftyAt table (depth + count) count 0 (index grammar receiver)
      (fun _ => table.spare) state := by
  apply ThriftyAt.within
  apply thriftyAt_look_bind
  refine ThriftyAt.followedBy (.enter hopener fun _ =>
    hgrammar.expr.uncounted) fun key state => ?_
  apply thriftyAt_look_bind
  split
  · next hclosed =>
    have hkind := state.cursor.kind_ne_of_check hclosed nofun
    refine (thriftyAt_advance (.one hkind)).andThen fun _ => ?_
    exact (thrifty_spanOf receiver).bind fun _ =>
      thrifty_addExpr _ _ (by omega)
  · exact thrifty_fault _ state

/-- Each round consumes a suffix, and has its credit to pass on. -/
theorem thrifty_postfixFrom (rounds : Nat) (first : ExprId) :
    Thrifty table (min (depth + 1) rounds) 0 table.spare
      (postfixFrom grammar rounds first) fun _ => table.spare := by
  induction rounds generalizing first with
  | zero => exact thrifty_halt _ (Nat.min_zero _)
  | succ rounds ih =>
      intro state
      have hnext : ∀ found : ExprId,
          Thrifty table (min (depth + 1) (rounds + 1) - 1) 0
            (table.spare + table.spare) (postfixFrom grammar rounds found)
            fun _ => table.spare :=
        fun found => ((ih found).weaken (by omega) (Nat.le_refl 0)).mono
          (by omega) fun _ => by omega
      apply thriftyAt_look_bind
      split
      · next hkind =>
        have hcall := thriftyAt_call hgrammar first
          (.one (by rw [hkind]; nofun))
        exact (hcall.weaken (by omega) (Nat.le_refl 1)).andThen hnext
      · exact (thrifty_member first state).andThen hnext
      · next hkind =>
        have hindex := thriftyAt_index hgrammar first
          (.one (by rw [hkind]; nofun))
        exact (hindex.weaken (by omega) (Nat.le_refl 1)).andThen hnext
      · exact thrifty_keep state

theorem thrifty_postfixExpr :
    Thrifty table (depth + 1) 1 0 (postfixExpr grammar)
      fun _ => table.spare :=
  (thrifty_atom hgrammar).bind fun first => thrifty_rounds_bind fun rounds =>
    ((thrifty_postfixFrom hgrammar rounds first).weaken (by omega)
      (Nat.le_refl 0)).mono (by omega) fun _ => by omega

theorem thrifty_signExpr :
    Thrifty table (depth + 1) 1 0 (signExpr grammar) fun _ => table.spare := by
  intro state
  apply thriftyAt_look_bind
  split
  · exact thrifty_postfixExpr hgrammar state
  · next op hsign =>
    have hkind := state.cursor.kind_ne_of_some rfl hsign
    refine (thriftyAt_advance (.one hkind)).andThen fun _ => ?_
    exact hgrammar.signExpr.uncounted.bind
      fun operand => thrifty_addUnary _ _ operand (by omega)

theorem thrifty_composeExpr :
    Thrifty table (depth + 1) 1 0 (composeExpr grammar)
      fun _ => table.spare :=
  thrifty_chain rfl (thrifty_chain rfl (thrifty_chain rfl
    (thrifty_signExpr hgrammar)))

theorem thrifty_relationExpr :
    Thrifty table (depth + 1) 1 0 (relationExpr grammar)
      fun _ => table.spare := by
  refine (thrifty_composeExpr hgrammar).bind fun left state => ?_
  apply thriftyAt_look_bind
  split
  · exact thrifty_pure (by omega) state
  · next op hcompares =>
    have hkind := state.cursor.kind_ne_of_some rfl hcompares
    refine (thriftyAt_advance (.one hkind)).andThen fun _ => ?_
    refine ((thrifty_composeExpr hgrammar).weaken (by omega)
      (Nat.zero_le 1)).bind fun right => ?_
    refine (thrifty_look _).bind fun _ => ?_
    split
    · exact thrifty_fault _
    · exact thrifty_addJoined _ _ _ (by omega)

theorem thrifty_notExpr :
    Thrifty table (depth + 1) 1 0 (notExpr grammar) fun _ => table.spare := by
  intro state
  apply thriftyAt_look_bind
  split
  · next hnegated =>
    have hkind := state.cursor.kind_ne_of_check hnegated nofun
    refine (thriftyAt_advance (.one hkind)).andThen fun _ => ?_
    exact hgrammar.notExpr.uncounted.bind
      fun operand => thrifty_addUnary _ _ operand (by omega)
  · exact thrifty_relationExpr hgrammar state

theorem thrifty_orExpr :
    Thrifty table (depth + 1) 1 0 (orExpr grammar) fun _ => table.spare :=
  thrifty_chain rfl (thrifty_chain rfl (thrifty_notExpr hgrammar))

/-- The sign for an assignment pays for its row. -/
theorem thrifty_assignExpr :
    Thrifty table (depth + 1) 1 0 (assignExpr grammar)
      fun _ => table.spare := by
  refine (thrifty_orExpr hgrammar).bind fun left state => ?_
  apply thriftyAt_look_bind
  split
  · next hassigns =>
    have hkind := state.cursor.kind_ne_of_check hassigns nofun
    refine thriftyAt_expr_bind fun target => ?_
    split
    · exact thrifty_fail _ state
    · refine (thriftyAt_advance (.one hkind)).andThen fun _ => ?_
      refine (hgrammar.expr.weaken (by omega) (Nat.zero_le 1)).bind
        fun value => ?_
      exact (thrifty_spanOf value).bind fun _ => thrifty_addExpr _ _ (by omega)
  · exact thrifty_pure (by omega) state

end Expressions

section Statements

theorem thrifty_statementEnd :
    Thrifty table depth 0 0 statementEnd fun _ => 0 := by
  refine (thrifty_look _).bind fun found => ?_
  split
  · exact thrifty_advance.bind fun _ => thrifty_keep
  · exact thrifty_advance.bind fun _ => thrifty_keep
  · exact thrifty_keep
  · exact thrifty_keep
  · exact thrifty_fault _

theorem thrifty_eatContinuation (word : Keyword) :
    Thrifty table depth 0 0 (eatContinuation word) fun _ => 0 := by
  refine (thrifty_look _).bind fun found => ?_
  split
  · exact thrifty_skipNewlines.bind fun _ => thrifty_advance.bind fun _ =>
      thrifty_keep
  · exact thrifty_keep

/-- In front of what should be the word for the exit. -/
theorem thriftyAt_loopExit (form : StmtKind)
    (hyields : state.cursor.kind.Yields count) :
    ThriftyAt table depth count 0 (loopExit form) (fun _ => count) state := by
  refine (thrifty_read _ state).bind fun loops after hrun => ?_
  obtain rfl : state = after := congrArg Prod.snd hrun
  split
  · exact thrifty_fault _ state
  · refine (thriftyAt_advance hyields).andThen fun _ => ?_
    exact (thrifty_pure (by omega)).weaken (Nat.le_refl _) (by omega)

/-- The word of a further branch pays for the statement that the branch is and
its place in a list. -/
theorem thrifty_branchBlock (form : StmtKind) (span : Span)
    (hfunds : table.spare ≤ funds) :
    Thrifty table depth 0 funds (branchBlock form span) fun _ => 0 := by
  have hprice := table.price_stmt_le
  refine (thrifty_addStmt form span).spend (by omega) fun stmt => ?_
  exact (thrifty_addStmtList [stmt]).spend
    (by simp only [List.length_singleton]; omega)
    fun _ => thrifty_pure (Nat.zero_le _)

theorem thrifty_loopVariables :
    Thrifty table depth 1 0 loopVariables fun _ => 1 := by
  refine thrifty_expectIdent.bind fun first => ?_
  refine (thrifty_eat _).bind fun comma => ?_
  split
  · exact thrifty_expectIdent.bind fun _ => thrifty_pure (by omega)
  · exact thrifty_pure (by omega)

/-- The names after the first one leave enough for a row each. -/
theorem thrifty_namesFrom (rounds : Nat) :
    Thrifty table (min depth rounds) 0 0 (namesFrom rounds)
      fun names => table.price .names names.length := by
  induction rounds with
  | zero => exact thrifty_halt _ (Nat.min_zero depth)
  | succ rounds ih =>
      refine (thrifty_eat _).bind fun comma => ?_
      split
      · refine thrifty_expectIdent.bind fun name => ?_
        refine (ih.weaken (by omega) (Nat.zero_le _)).bind fun others => ?_
        have hprice := table.price_succ_le .names others.length
        exact thrifty_pure (by simp only [List.length_cons]; omega)
      · exact thrifty_pure (by simp [Table.price])

/-- The first name pays for its own row. Nothing is left, and nothing is
consumed where there is no name. -/
theorem thrifty_catchHead :
    Thrifty table depth 0 0 catchHead fun _ => 0 := by
  refine (thrifty_look _).bind fun name => ?_
  split
  · exact (thrifty_read _).bind fun _ => thrifty_keep
  · refine (thrifty_look _).bind fun place => ?_
    refine thrifty_expectIdent.uncounted.bind fun first => ?_
    refine thrifty_rounds_bind fun rounds => ?_
    refine (thrifty_namesFrom rounds).bind fun others => ?_
    refine (thrifty_eat _).bind fun named => ?_
    split
    · refine thrifty_expectIdent.bind fun _ => ?_
      have hprice := table.price_succ_le .names others.length
      refine (thrifty_addNames (first :: others)).spend
        (by simp only [List.length_cons]; omega) fun _ => ?_
      exact thrifty_pure (Nat.zero_le _)
    · split
      · split
        · exact thrifty_fail _
        · exact (thrifty_read _).bind fun _ => thrifty_pure (Nat.zero_le _)
      · exact thrifty_fault _

variable {grammar : Grammar} (hgrammar : grammar.Thrifty table depth)

include hgrammar

theorem thrifty_optionalExpr :
    Thrifty table depth 0 0 (optionalExpr grammar) fun _ => 0 := by
  refine (thrifty_look _).bind fun found => ?_
  split
  · exact thrifty_keep
  · exact hgrammar.expr.uncounted.bind fun _ => thrifty_pure (Nat.zero_le _)

/-- In front of its word a statement consumes the word, and else an expression.
-/
theorem thrifty_smallStatement :
    Thrifty table (depth + 1) 1 0 (smallStatement grammar)
      fun _ => table.spare := by
  have hspare := table.spare_le
  intro state
  apply thriftyAt_look_bind
  split
  · next hkind =>
    have hword : state.cursor.kind.Yields 1 := .one (by rw [hkind]; nofun)
    refine (thriftyAt_advance hword).andThen fun _ => ?_
    exact (thrifty_optionalExpr hgrammar).bind fun _ => thrifty_pure (by omega)
  · next hkind =>
    have hword : state.cursor.kind.Yields 1 := .one (by rw [hkind]; nofun)
    refine (thriftyAt_advance hword).andThen fun _ => ?_
    exact (thrifty_optionalExpr hgrammar).bind fun _ => thrifty_pure (by omega)
  · next hkind =>
    exact (thriftyAt_loopExit _ (.one (by rw [hkind]; nofun))).mono
      (Nat.le_refl 0) fun _ => by omega
  · next hkind =>
    exact (thriftyAt_loopExit _ (.one (by rw [hkind]; nofun))).mono
      (Nat.le_refl 0) fun _ => by omega
  · exact (thrifty_assignExpr hgrammar state).andThen fun _ =>
      thrifty_pure (by omega)

/-- There may be no other branch. If it is a further condition, that pays for
the statement that it becomes. -/
theorem thrifty_otherBranch :
    Thrifty table depth 0 0 (otherBranch grammar) fun _ => 0 := by
  refine (thrifty_look _).bind fun found => ?_
  split
  · refine thrifty_skipNewlines.bind fun _ => ?_
    refine (thrifty_look _).bind fun start => ?_
    refine hgrammar.branch.uncounted.bind fun nested => ?_
    refine (thrifty_look _).bind fun last => ?_
    exact (thrifty_branchBlock nested _ (Nat.le_refl _)).spend (by omega)
      fun _ => thrifty_pure (Nat.zero_le _)
  · refine (thrifty_eatContinuation _).bind fun found => ?_
    split
    · exact hgrammar.block.uncounted.bind fun _ => thrifty_pure (Nat.zero_le _)
    · exact thrifty_keep

theorem thrifty_branch :
    Thrifty table (depth + 1) 1 0 (branch grammar) fun _ => table.spare := by
  refine thrifty_advance.bind fun _ => ?_
  refine (thrifty_assignExpr hgrammar).bind fun condition => ?_
  refine hgrammar.block.uncounted.bind fun body => ?_
  exact (thrifty_otherBranch hgrammar).bind fun _ => thrifty_pure (by omega)

theorem thrifty_loop :
    Thrifty table (depth + 1) 1 0 (loop grammar) fun _ => table.spare := by
  have hin : (TokenKind.keyword .inKw).Yields 1 := .one nofun
  refine thrifty_advance.bind fun _ => ?_
  refine thrifty_loopVariables.bind ?_
  rintro ⟨key, value⟩
  refine (thrifty_expect hin).uncounted.bind fun _ => ?_
  refine ((thrifty_assignExpr hgrammar).weaken (Nat.le_succ _)
    (Nat.zero_le 1)).bind fun iterated => ?_
  exact hgrammar.block.inLoop.bind fun _ => thrifty_pure (by omega)

theorem thrifty_catchClause :
    Thrifty table depth 0 0 (catchClause grammar) fun _ => 0 := by
  refine thrifty_catchHead.bind ?_
  rintro ⟨binding, kinds⟩
  exact hgrammar.block.bind fun _ => thrifty_pure (Nat.zero_le _)

/-- In front of what should be the word for the block. -/
theorem thriftyAt_attempt (hyields : state.cursor.kind.Yields count) :
    ThriftyAt table (depth + count) count 0 (attempt grammar)
      (fun _ => table.spare) state := by
  have hspare := table.spare_le
  refine (thriftyAt_advance hyields).followedBy fun _ => ?_
  refine hgrammar.block.uncounted.bind fun body => ?_
  refine (thrifty_eatContinuation _).bind fun found => ?_
  split
  · exact ((thrifty_catchClause hgrammar).within _).bind fun _ =>
      thrifty_pure (by omega)
  · exact thrifty_fault _

/-- The name is not counted, since the resource may have none. -/
theorem thrifty_resource :
    Thrifty table (depth + 1) 1 0 (resource grammar)
      fun _ => table.spare := by
  refine thrifty_advance.bind fun _ => ?_
  refine (thrifty_assignExpr hgrammar).bind fun acquired => ?_
  refine (thrifty_eat _).bind fun named => ?_
  have hrest : ∀ {funds : Nat} (binding : Option String),
      table.spare ≤ funds → Thrifty table depth 0 funds
        (do return StmtKind.resource acquired binding (← grammar .block))
        fun _ => table.spare :=
    fun _ hfunds => hgrammar.block.uncounted.bind fun _ =>
      thrifty_pure (by omega)
  split
  · have hname : Thrifty table depth 0 0 (some <$> expectIdent) fun _ => 0 :=
      thrifty_expectIdent.uncounted.bind fun _ => thrifty_pure (Nat.zero_le _)
    exact hname.bind fun binding => hrest binding (by omega)
  · rw [Step.pure_bind]
    exact hrest none (by omega)

theorem thrifty_funcBlock :
    Thrifty table (depth + 1) 1 0 (funcBlock grammar)
      fun _ => table.spare := by
  have hspare := table.spare_le
  refine thrifty_advance.bind fun _ => ?_
  refine thrifty_expectIdent.bind fun name => ?_
  exact ((thrifty_functionRest hgrammar _ _).weaken (Nat.le_succ _)
    (Nat.zero_le 1)).bind fun _ => thrifty_pure (by omega)

theorem thrifty_inheritBlock :
    Thrifty table (depth + 1) 1 0 (inheritBlock grammar)
      fun _ => table.spare := by
  have hspare := table.spare_le
  have hfrom : (TokenKind.keyword .fromKw).Yields 1 := .one nofun
  refine thrifty_advance.bind fun _ => ?_
  refine thrifty_expectIdent.bind fun name => ?_
  refine (thrifty_expect hfrom).uncounted.bind fun _ => ?_
  refine thrifty_expectIdent.uncounted.bind fun parent => ?_
  exact hgrammar.block.bind fun _ => thrifty_pure (by omega)

theorem thriftyAt_assignBlock (name : String)
    (hyields : state.cursor.kind.Yields count) :
    ThriftyAt table (depth + count) count 0 (assignBlock grammar name)
      (fun _ => table.spare) state := by
  have hspare := table.spare_le
  refine (thriftyAt_advance hyields).followedBy fun _ => ?_
  refine thrifty_advance.bind fun _ => ?_
  exact hgrammar.block.uncounted.bind fun _ => thrifty_pure (by omega)

theorem thriftyAt_doBlock (hyields : state.cursor.kind.Yields count) :
    ThriftyAt table (depth + count) count 0 (doBlock grammar)
      (fun _ => table.spare) state := by
  have hspare := table.spare_le
  refine (thriftyAt_advance hyields).followedBy fun _ => ?_
  exact hgrammar.block.uncounted.bind fun _ => thrifty_pure (by omega)

/-- Any form leaves what the row of an expression would not cost. -/
theorem thrifty_statementForm :
    Thrifty table (depth + 1) 1 0 (statementForm grammar)
      fun _ => table.spare := by
  intro state
  apply thriftyAt_look_bind
  simp only [id]
  split
  · exact (thrifty_branch hgrammar state).within _
  · next hkind =>
    exact (thriftyAt_doBlock hgrammar (.one (by rw [hkind]; nofun))).within _
  · exact (thrifty_loop hgrammar state).within _
  · next hkind =>
    exact (thriftyAt_attempt hgrammar (.one (by rw [hkind]; nofun))).within _
  · exact (thrifty_resource hgrammar state).within _
  · exact (thrifty_inheritBlock hgrammar state).within _
  · split
    · exact (thrifty_funcBlock hgrammar state).within _
    · exact thrifty_smallStatement hgrammar state
  · next name hkind =>
    split
    · exact (thriftyAt_assignBlock hgrammar name
        (.one (by rw [hkind]; nofun))).within _
    · exact thrifty_smallStatement hgrammar state
  · exact thrifty_smallStatement hgrammar state

/-- A statement leaves enough for its place in a list. -/
theorem thrifty_statement :
    Thrifty table (depth + 1) 1 0 (statement grammar)
      fun _ => table.price .stmtLists 1 := by
  have hprice := table.price_stmt_le
  refine (thrifty_look _).bind fun start => ?_
  refine (thrifty_statementForm hgrammar).bind fun form => ?_
  refine (thrifty_look _).bind fun last => ?_
  refine (thrifty_addStmt form _).spend (by omega) fun stmt => ?_
  exact thrifty_statementEnd.bind fun _ => thrifty_pure (by omega)

/-- The statements leave enough for their places in a list. -/
theorem thrifty_statementsFrom (stop : TokenKind) (rounds : Nat) :
    Thrifty table (min (depth + 1) rounds) 0 0
      (statementsFrom grammar stop rounds)
      fun stmts => table.price .stmtLists stmts.length := by
  induction rounds with
  | zero => exact thrifty_halt _ (Nat.min_zero _)
  | succ rounds ih =>
      refine thrifty_skipNewlines.bind fun _ => ?_
      refine (thrifty_look _).bind fun stopped => ?_
      refine (thrifty_look _).bind fun ended => ?_
      split
      · exact thrifty_pure (by simp [Table.price])
      · refine ((thrifty_statement hgrammar).weaken (by omega)
          (Nat.le_refl 1)).bind fun first => ?_
        refine (ih.weaken (by omega) (Nat.zero_le _)).bind fun others => ?_
        have hprice := table.price_stmtLists_succ others.length
        exact thrifty_pure (by simp only [List.length_cons]; omega)

/-- The opener is consumed, and the credit of the block is its close. -/
theorem thrifty_block :
    Thrifty table (depth + 1) 1 0 (block grammar) fun _ => 1 := by
  apply Thrifty.within
  intro state
  apply thriftyAt_look_bind
  split
  · next hcheck =>
    have hopens : state.cursor.kind.Yields 1 :=
      .one (state.cursor.kind_ne_of_check hcheck nofun)
    apply thriftyAt_look_bind
    refine ThriftyAt.followedBy (.enter hopens fun _ =>
      thrifty_rounds_bind fun rounds =>
        (thrifty_statementsFrom hgrammar _ rounds).weaken (by omega)
          (Nat.le_refl 0)) fun stmts state => ?_
    apply thriftyAt_look_bind
    split
    · next hcloses =>
      have hkind := state.cursor.kind_ne_of_check hcloses nofun
      refine (thriftyAt_advance (.one hkind)).andThen fun _ => ?_
      exact (thrifty_addStmtList stmts).spend (by omega) fun _ =>
        thrifty_pure (by omega)
    · exact thrifty_fault _ state
  · exact thrifty_fault _ state

theorem thrifty_script :
    Thrifty table (depth + 1) 0 0 (script grammar) fun _ => 0 := by
  apply Thrifty.within
  refine (thrifty_look _).bind fun start => ?_
  refine thrifty_rounds_bind fun rounds => ?_
  refine (thrifty_statementsFrom hgrammar _ rounds).bind fun stmts => ?_
  refine (thrifty_look _).bind fun last => ?_
  exact (thrifty_addStmtList stmts).spend (by omega) fun _ =>
    thrifty_pure (Nat.zero_le _)

end Statements

end Parse

/-- Each level of the grammar is thrifty at the depth that it allows. -/
theorem grammar_thrifty (table : Table) (depth : Nat) :
    (grammar depth).Thrifty table depth := by
  induction depth with
  | zero =>
      exact
        { expr := Parse.thrifty_halt _ rfl
          notExpr := Parse.thrifty_halt _ rfl
          signExpr := Parse.thrifty_halt _ rfl
          block := Parse.thrifty_halt _ rfl
          branch := Parse.thrifty_halt _ rfl }
  | succ depth ih =>
      exact
        { expr := Parse.thrifty_assignExpr ih
          notExpr := Parse.thrifty_notExpr ih
          signExpr := Parse.thrifty_signExpr ih
          block := Parse.thrifty_block ih
          branch := Parse.thrifty_branch ih }

/-- The depth that is allowed for a list of tokens is never used up. -/
theorem runParser_ne_exhausted (number : Nat) (tokens : List Token) :
    (runParser number tokens).1 ≠ .halted .exhausted :=
  (Parse.thrifty_script (grammar_thrifty .exprs (tokens.length + 1))
    (.start number tokens)).steady.answers
      (Nat.lt_succ_of_lt (Nat.lt_succ_self tokens.length))

/-- No table gets more rows than there are tokens. -/
theorem runParser_rows_le (number : Nat) (tokens : List Token)
    (table : Table) :
    (runParser number tokens).2.program.rows table ≤ tokens.length := by
  have hpays := (Parse.thrifty_script (grammar_thrifty table
    (tokens.length + 1)) (.start number tokens)).pays
  have hnone : (Program.empty number).rows table = 0 := by
    cases table <;> rfl
  have htokens : (ParserState.start number tokens).cursor.rest = tokens := rfl
  change _ ≤ (Program.empty number).rows table + _ + 0 at hpays
  rw [hnone, htokens] at hpays
  change Program.rows (runParser number tokens).2.program table + _ + _ ≤ _
    at hpays
  omega

end ChainScript
