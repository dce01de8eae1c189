import ChainScript.Proofs.Levels
import ChainScript.Proofs.ThriftyGrammar

/-
The productions of the grammar put back what surrounds them.

A production may enter regions where line feeds count or not, and loops, and
may fail anywhere inside of them.  However it ends, the regions and the loops
are those in which it started, wherever it started: the functions of the parser
that are called in front of a certain token only are no exception in front of
another one.
-/

namespace ChainScript

open Step Parse

/-- The productions of the grammar, with what they are given. -/
inductive Production where
  /-- A reference back from one of the others. -/
  | rule (back : Rule)
  | script
  | statements (stop : TokenKind)
  | statement
  | statementEnd
  | form
  | small
  | optionalExpr
  | loopExit (exit : StmtKind)
  | block
  | branch
  | otherBranch
  | continuation (word : Keyword)
  | loop
  | loopVariables
  | attempt
  | catchClause
  | catchHead
  | names
  | resource
  | funcBlock
  | inheritBlock
  | assignBlock (name : String)
  | doBlock
  | expr (level : Precedence)
  | atom
  | suffixes (first : ExprId)
  | badge
  | array
  | group
  | call (callee : ExprId)
  | member (receiver : ExprId)
  | index (receiver : ExprId)
  | entry
  | entries (opener : TokenKind) (place : Span) (close : TokenKind)
  | delimited (opener close : TokenKind)
  | function
  | functionRest (name : String) (start : Span)
  | params
  | paramList (place : Span)
  | param
  | default
deriving Repr, DecidableEq

namespace Production

/-- What a production parses. -/
@[reducible] def Result : Production → Type
  | .rule back => back.Result
  | .script => Script
  | .statements _ => List StmtId
  | .statement => StmtId
  | .statementEnd => Unit
  | .form | .small | .loopExit _ | .branch | .loop | .attempt | .resource
  | .funcBlock | .inheritBlock | .assignBlock _ | .doBlock => StmtKind
  | .optionalExpr | .default => Option ExprId
  | .block => Block
  | .otherBranch => Option Block
  | .continuation _ => Bool
  | .loopVariables => Option String × String
  | .catchClause => CatchClause
  | .catchHead => Option String × NameRange
  | .names => List String
  | .expr _ | .atom | .suffixes _ | .badge | .array | .group | .call _
  | .member _ | .index _ | .function => ExprId
  | .entry => Entry
  | .entries _ _ _ => List Entry × Bool
  | .delimited _ _ => List Entry × Bool × Span
  | .functionRest _ _ => FuncId
  | .params | .paramList _ => List Param
  | .param => Param

/-- The parser of a production. -/
def parser (grammar : Grammar) :
    (production : Production) → Parse production.Result
  | .rule back => grammar back
  | .script => Parse.script grammar
  | .statements stop => do Parse.statementsFrom grammar stop (← rounds)
  | .statement => Parse.statement grammar
  | .statementEnd => Parse.statementEnd
  | .form => Parse.statementForm grammar
  | .small => Parse.smallStatement grammar
  | .optionalExpr => Parse.optionalExpr grammar
  | .loopExit exit => Parse.loopExit exit
  | .block => Parse.block grammar
  | .branch => Parse.branch grammar
  | .otherBranch => Parse.otherBranch grammar
  | .continuation word => Parse.eatContinuation word
  | .loop => Parse.loop grammar
  | .loopVariables => Parse.loopVariables
  | .attempt => Parse.attempt grammar
  | .catchClause => Parse.catchClause grammar
  | .catchHead => Parse.catchHead
  | .names => do Parse.namesFrom (← rounds)
  | .resource => Parse.resource grammar
  | .funcBlock => Parse.funcBlock grammar
  | .inheritBlock => Parse.inheritBlock grammar
  | .assignBlock name => Parse.assignBlock grammar name
  | .doBlock => Parse.doBlock grammar
  | .expr level => level.rule grammar
  | .atom => Parse.atom grammar
  | .suffixes first => do Parse.postfixFrom grammar (← rounds) first
  | .badge => Parse.badge
  | .array => Parse.arrayLiteral grammar
  | .group => Parse.parenthesised grammar
  | .call callee => Parse.call grammar callee
  | .member receiver => Parse.member receiver
  | .index receiver => Parse.index grammar receiver
  | .entry => Parse.entry grammar
  | .entries opener place close => do
      Parse.entriesFrom grammar opener place close (← rounds) false
  | .delimited opener close => Parse.delimited grammar opener close
  | .function => Parse.functionExpr grammar
  | .functionRest name start => Parse.functionRest grammar name start
  | .params => Parse.params grammar
  | .paramList place => do Parse.paramsFrom grammar place (← rounds)
  | .param => Parse.param grammar
  | .default => Parse.default? grammar

end Production

namespace Parse

/-- An expression at a level of precedence consumes a token. -/
theorem steady_level {depth : Nat} {grammar : Grammar}
    (hgrammar : grammar.Thrifty .exprs depth) (level : Precedence) :
    Steady (depth + 1) 1 (level.rule grammar) := by
  have hsign := thrifty_signExpr hgrammar
  have hnot := thrifty_notExpr hgrammar
  cases level with
  | assign => exact (thrifty_assignExpr hgrammar).steady
  | or => exact (thrifty_orExpr hgrammar).steady
  | and => exact (thrifty_chain rfl hnot).steady
  | not => exact hnot.steady
  | relation => exact (thrifty_relationExpr hgrammar).steady
  | compose => exact (thrifty_composeExpr hgrammar).steady
  | sum => exact (thrifty_chain rfl (thrifty_chain rfl hsign)).steady
  | product => exact (thrifty_chain rfl hsign).steady
  | sign => exact hsign.steady
  | suffix => exact (thrifty_postfixExpr hgrammar).steady

/-- Every production is steady, one case for each.  Those that are called in
front of a certain token only may find the end of the file there, and are not
said to consume anything. -/
theorem steady_production {depth : Nat} {grammar : Grammar}
    (hgrammar : grammar.Thrifty .exprs depth) (production : Production) :
    Steady depth 0 (production.parser grammar) := by
  have hless : ∀ {α : Type} {parser : Parse α} {count funds : Nat}
      {credit : α → Nat},
      Thrifty .exprs (depth + 1) count funds parser credit →
        Steady depth 0 parser :=
    fun hparser => hparser.steady.mono (Nat.le_succ depth) (Nat.zero_le _)
  cases production with
  | rule back =>
      exact (hgrammar.steady back).mono (Nat.le_refl _) (Nat.zero_le 1)
  | script => exact hless (thrifty_script hgrammar)
  | statements stop =>
      exact steady_rounds_bind fun rounds =>
        (thrifty_statementsFrom hgrammar stop rounds).steady.mono (by omega)
          (Nat.le_refl 0)
  | statement => exact hless (thrifty_statement hgrammar)
  | statementEnd => exact hless thrifty_statementEnd
  | form => exact hless (thrifty_statementForm hgrammar)
  | small => exact hless (thrifty_smallStatement hgrammar)
  | optionalExpr => exact (thrifty_optionalExpr hgrammar).steady
  | loopExit exit =>
      exact hless fun state => thriftyAt_loopExit exit (.zero _)
  | block => exact hless (thrifty_block hgrammar)
  | branch => exact hless (thrifty_branch hgrammar)
  | otherBranch => exact (thrifty_otherBranch hgrammar).steady
  | continuation word => exact hless (thrifty_eatContinuation word)
  | loop => exact hless (thrifty_loop hgrammar)
  | loopVariables => exact hless thrifty_loopVariables
  | attempt => exact fun _ => (thriftyAt_attempt hgrammar (.zero _)).steady
  | catchClause => exact (thrifty_catchClause hgrammar).steady
  | catchHead => exact hless thrifty_catchHead
  | names =>
      exact steady_rounds_bind fun rounds =>
        (@thrifty_namesFrom .exprs depth rounds).steady
  | resource => exact hless (thrifty_resource hgrammar)
  | funcBlock => exact hless (thrifty_funcBlock hgrammar)
  | inheritBlock => exact hless (thrifty_inheritBlock hgrammar)
  | assignBlock name =>
      exact fun _ => (thriftyAt_assignBlock hgrammar name (.zero _)).steady
  | doBlock => exact fun _ => (thriftyAt_doBlock hgrammar (.zero _)).steady
  | expr level =>
      exact (steady_level hgrammar level).mono (Nat.le_succ depth)
        (Nat.zero_le 1)
  | atom => exact hless (thrifty_atom hgrammar)
  | suffixes first =>
      exact steady_rounds_bind fun rounds =>
        (thrifty_postfixFrom hgrammar rounds first).steady.mono (by omega)
          (Nat.le_refl 0)
  | badge => exact hless thrifty_badge
  | array => exact fun _ => (thriftyAt_arrayLiteral hgrammar (.zero _)).steady
  | group => exact fun _ => (thriftyAt_parenthesised hgrammar (.zero _)).steady
  | call callee =>
      exact fun _ => (thriftyAt_call hgrammar callee (.zero _)).steady
  | member receiver => exact hless (thrifty_member receiver)
  | index receiver =>
      exact fun _ => (thriftyAt_index hgrammar receiver (.zero _)).steady
  | entry => exact (thrifty_entry hgrammar).uncounted.steady
  | entries opener place close =>
      exact steady_rounds_bind fun rounds =>
        (thrifty_entriesFrom hgrammar opener place close rounds false).steady
  | delimited opener close =>
      exact fun _ =>
        (thriftyAt_delimited hgrammar opener (.zero _) (.zero close)).steady
  | function => exact hless (thrifty_functionExpr hgrammar)
  | functionRest name start => exact hless (thrifty_functionRest hgrammar _ _)
  | params => exact hless (thrifty_params hgrammar)
  | paramList place =>
      exact steady_rounds_bind fun rounds =>
        (thrifty_paramsFrom hgrammar place rounds).steady
  | param => exact (thrifty_param hgrammar).uncounted.steady
  | default => exact (thrifty_default? hgrammar).steady

end Parse

/-- However a production ends, line feeds count where they did and there are as
many loops as there were.  It is not abandoned where there are fewer tokens left
than it has depth.  Inside a loop there is one more loop when the body is over,
so that it can be taken off again. -/
theorem productions_restore (depth : Nat) (production : Production)
    (state : ParserState) :
    (production.parser (grammar depth) state).2.cursor.modes =
        state.cursor.modes ∧
      (production.parser (grammar depth) state).2.loopDepth =
        state.loopDepth ∧
      (state.cursor.rest.length < depth →
        (production.parser (grammar depth) state).1 ≠ .halted .exhausted) ∧
      0 < (production.parser (grammar depth)
        { state with loopDepth := state.loopDepth + 1 }).2.loopDepth := by
  have hsteady := steady_production (grammar_thrifty _ depth) production
  refine ⟨(hsteady state).modes, (hsteady state).loopDepth,
    (hsteady state).answers, ?_⟩
  rw [(hsteady _).loopDepth]
  exact Nat.succ_pos state.loopDepth

end ChainScript
