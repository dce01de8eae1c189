import ChainScript.Proofs.SafeOperations
import ChainScript.Proofs.Signals

/-
The signals that leave each form of code, given those that leave its parts.

Expressions and calls are left with odd signals only, since a `return` ends
where the function's body does.  Loops end `break` and `continue`, and all
other statements pass on what leaves the statements in them.
-/

namespace ChainScript

open Step Run

variable {World : Type} {stage : Stage World} {odd : Signal → Prop}

/-- A program is the running one. -/
structure Stage.Runs (stage : Stage World) (running : Program) : Prop where
  here : stage.programs[stage.number]? = some running
  number : running.number = stage.number

/-- What holds of the running program holds of the one with its number. -/
theorem Stage.Runs.is {running : Program} (hruns : stage.Runs running)
    {form : Program → Prop} (hform : form running) :
    ProgramIs stage.programs stage.number form :=
  ⟨running, hruns.here, hruns.number, hform⟩

/-- What leaves an expression may leave a statement. -/
theorem Run.Ends.toStmt {α : Type} {inLoop : Bool} {body : Run World α}
    {Good : α → Prop} (hbody : Ends stage odd body Good) :
    Ends stage (Signal.Leaves odd inLoop) body Good :=
  hbody.mono (fun _ => Signal.leaves_of_odd) fun _ => id

namespace Worker

/-- How a worker ends all tasks that belong to the running program, and all
calls. -/
structure Orderly (stage : Stage World) (odd : Signal → Prop)
    (worker : Worker World) : Prop where
  expr : ∀ id,
    (ProgramIs stage.programs stage.number fun program =>
      program.ShowsExpr id) →
    Ends stage odd (worker (.expr id)) fun _ => True
  stmt : ∀ inLoop id,
    (ProgramIs stage.programs stage.number fun program =>
      program.ShowsStmt inLoop id) →
    Ends stage (Signal.Leaves odd inLoop) (worker (.stmt id)) fun _ => True
  call : ∀ function args site,
    Ends stage odd (worker (.call function args site)) fun _ => True

variable {worker : Worker World} (hworker : worker.Orderly stage odd)
  {running : Program} (hruns : stage.Runs running)

section Expressions

theorem ends_memberOf (receiver : Value) (key : Key) :
    Ends stage odd (memberOf receiver key) fun _ => True := by
  cases receiver with
  | array chain =>
      apply (ends_readHeap _).bind
      intro found _
      cases found with
      | some value => exact ends_pure trivial
      | none => exact ends_fault _
  | _ => exact ends_fault _

include hworker hruns

theorem ends_expr {id : ExprId} (hid : running.ShowsExpr id) :
    Ends stage odd (worker.expr id) fun _ => True :=
  hworker.expr id (hruns.is hid)

theorem ends_optional {value : Option ExprId}
    (hvalue : running.Shows .optional value) :
    Ends stage odd (worker.optional value) fun _ => True := by
  obtain ⟨tree, hat⟩ := hvalue
  cases tree with
  | absent =>
      obtain rfl := hat
      exact ends_pure trivial
  | present tree =>
      obtain ⟨id, rfl, hid⟩ := hat
      exact ends_expr hworker hruns ⟨tree, hid⟩

/-- One entry after another, along the tree that the rows show. -/
theorem ends_entriesFrom {content : Container Value} {rows : List Entry}
    (hrows : running.Shows .entries rows) :
    Ends stage odd (worker.entriesFrom content rows) fun _ => True := by
  induction rows generalizing content with
  | nil => exact ends_pure trivial
  | cons first rest ih =>
      obtain ⟨tree, hat⟩ := hrows
      cases tree with
      | noEntries => exact absurd hat (List.cons_ne_nil _ _)
      | item value others =>
          obtain ⟨id, span, _, ⟨⟩, hid, hrest⟩ := hat
          have hentry : Ends stage odd
              (worker.entry content ⟨.item id, span⟩) fun _ => True :=
            (ends_expr hworker hruns ⟨value, hid⟩).bind fun _ _ =>
              ends_pure trivial
          exact hentry.bind fun _ _ => ih ⟨others, hrest⟩
      | keyed key value others =>
          obtain ⟨id, span, _, ⟨⟩, hid, hrest⟩ := hat
          have hentry : Ends stage odd
              (worker.entry content ⟨.keyed key.key id, span⟩) fun _ => True :=
            (ends_expr hworker hruns ⟨value, hid⟩).bind fun _ _ =>
              ends_pure trivial
          exact hentry.bind fun _ _ => ih ⟨others, hrest⟩
      | expand name others =>
          obtain ⟨span, _, ⟨⟩, hrest⟩ := hat
          have hentry : Ends stage odd
              (worker.entry content ⟨.expand name, span⟩) fun _ => True := by
            apply ((ends_lookup _).located span).bind
            intro value _
            cases value with
            | array chain =>
                exact (ends_readHeap _).bind fun _ _ => ends_pure trivial
            | _ => exact ends_faultAt _ _
          exact hentry.bind fun _ _ => ih ⟨others, hrest⟩

theorem ends_entries {range : EntryRange} (hrange : running.ShowsEntries range) :
    Ends stage odd (worker.entries range) fun _ => True := by
  obtain ⟨tree, rows, hrows, hat⟩ := hrange
  apply (ends_program hruns.here).bind
  rintro _ rfl
  apply (ends_row hrows).bind
  rintro _ rfl
  exact ends_entriesFrom hworker hruns ⟨tree, hat⟩

/-- The right operand may not be evaluated at all. -/
theorem ends_logical (op : BinaryOp) {left right : ExprId}
    (hleft : running.ShowsExpr left) (hright : running.ShowsExpr right) :
    Ends stage odd (worker.logical op left right) fun _ => True := by
  apply (ends_expr hworker hruns hleft).bind
  intro value _
  apply (ends_ofExcept _).bind
  intro first _
  split
  · exact ends_pure trivial
  · exact (ends_expr hworker hruns hright).bind fun _ _ =>
      (ends_ofExcept _).bind fun _ _ => ends_pure trivial

theorem ends_binary (op : BinaryOp) {left right : ExprId}
    (hleft : running.ShowsExpr left) (hright : running.ShowsExpr right) :
    Ends stage odd (worker.binary op left right) fun _ => True := by
  unfold binary
  split
  · exact ends_logical hworker hruns _ hleft hright
  · exact ends_logical hworker hruns _ hleft hright
  · exact (ends_expr hworker hruns hleft).bind fun _ _ =>
      (ends_expr hworker hruns hright).bind fun _ _ =>
        (ends_readHeap _).bind fun outcome _ => ends_ofOutcome outcome

theorem ends_composeExpr {left right : ExprId}
    (hleft : running.ShowsExpr left) (hright : running.ShowsExpr right) :
    Ends stage odd (worker.compose left right) fun _ => True :=
  (ends_expr hworker hruns hleft).bind fun _ _ =>
    (ends_expr hworker hruns hright).bind fun _ _ =>
      (ends_compose _ _).bind fun result _ => ends_ofExcept result

/-- Only a function can be called, and a call is left with odd signals only. -/
theorem ends_callExpr {callee : ExprId} {args : EntryRange} (span : Span)
    (hcallee : running.ShowsExpr callee) (hargs : running.ShowsEntries args) :
    Ends stage odd (worker.callExpr callee args span) fun _ => True := by
  apply (ends_expr hworker hruns hcallee).bind
  intro function _
  apply (ends_entries hworker hruns hargs).bind
  intro content _
  cases function with
  | function id => exact hworker.call id content (some span)
  | _ => exact ends_fault _

/-- One case for each form of an expression. -/
theorem ends_exprKind (span : Span) {kind : ExprKind}
    (hkind : running.Shows .expr kind) :
    Ends stage odd (worker.exprKind span kind) fun _ => True := by
  obtain ⟨tree, hat⟩ := hkind
  cases tree with
  | null | bool | int | float | str =>
      cases hat
      exact ends_pure trivial
  | ident | badge =>
      cases hat
      exact ends_lookup _
  | member receiver key =>
      obtain ⟨id, rfl, hid⟩ := hat
      exact (ends_expr hworker hruns ⟨receiver, hid⟩).bind fun _ _ =>
        ends_memberOf _ _
  | index receiver key =>
      obtain ⟨left, right, rfl, hleft, hright⟩ := hat
      exact (ends_expr hworker hruns ⟨receiver, hleft⟩).bind fun _ _ =>
        (ends_expr hworker hruns ⟨key, hright⟩).bind fun _ _ =>
          (ends_ofExcept _).bind fun _ _ => ends_memberOf _ _
  | array entries | args entries =>
      obtain ⟨range, rfl, hrange⟩ := hat
      exact (ends_entries hworker hruns ⟨entries, hrange⟩).bind fun _ _ =>
        ends_newArray _
  | binary op left right =>
      obtain ⟨one, other, rfl, hone, hother⟩ := hat
      exact ends_binary hworker hruns op ⟨left, hone⟩ ⟨right, hother⟩
  | unary op operand =>
      obtain ⟨id, rfl, hid⟩ := hat
      exact (ends_expr hworker hruns ⟨operand, hid⟩).bind fun _ _ =>
        ends_ofExcept _
  | compose left right =>
      obtain ⟨one, other, rfl, hone, hother⟩ := hat
      exact ends_composeExpr hworker hruns ⟨left, hone⟩ ⟨right, hother⟩
  | call callee arguments =>
      obtain ⟨id, range, rfl, hid, hrange⟩ := hat
      exact ends_callExpr hworker hruns span ⟨callee, hid⟩ ⟨arguments, hrange⟩
  | assign target value =>
      obtain ⟨id, rfl, hid⟩ := hat
      exact (ends_expr hworker hruns ⟨value, hid⟩).bind fun _ _ =>
        (ends_bind _ _).bind fun _ _ => ends_pure trivial
  | func params body =>
      obtain ⟨id, rfl, hfunc⟩ := hat
      have hshows : running.ShowsFunc "" id := ⟨params, body, hfunc⟩
      obtain ⟨func, hrow, _⟩ := hfunc
      apply (ends_program hruns.here).bind
      rintro _ rfl
      apply (ends_row hrow).bind
      rintro _ rfl
      exact ends_newClosure _ (hruns.is ⟨"", hshows⟩)

theorem ends_evalExpr {id : ExprId} (hid : running.ShowsExpr id) :
    Ends stage odd (worker.evalExpr id) fun _ => True := by
  obtain ⟨tree, expr, hrow, hat⟩ := hid
  apply (ends_program hruns.here).bind
  rintro _ rfl
  apply (ends_row hrow).bind
  rintro _ rfl
  exact (ends_exprKind hworker hruns _ ⟨tree, hat⟩).located _

end Expressions

section Statements

variable {inLoop : Bool}

theorem ends_bound (name : String) (value : Value) :
    Ends stage odd (bound name value) fun _ => True :=
  (ends_bind _ _).bind fun _ _ => ends_pure trivial

theorem ends_hook? (resource : Value) (label : String) :
    Ends stage odd (hook? resource label) fun _ => True := by
  cases resource with
  | array chain =>
      apply (ends_readHeap _).bind
      intro found _
      split <;> exact ends_pure trivial
  | _ => exact ends_pure trivial

theorem ends_recoveryBindings (binding : Option String) (cause : Cause) :
    Ends stage odd (recoveryBindings binding cause) fun _ => True := by
  cases binding with
  | none => exact ends_pure trivial
  | some name =>
      have hvalue : Ends stage odd (caughtValue cause) fun _ => True := by
        unfold caughtValue
        split
        · exact ends_pure trivial
        · exact ends_newArray _
      exact hvalue.bind fun _ _ => ends_pure trivial

include hworker

theorem ends_entering (enter : Option FunctionId) (span : Span)
    (resource : Value) :
    Ends stage odd (worker.entering enter span resource) fun _ => True := by
  cases enter with
  | none => exact ends_pure trivial
  | some id => exact hworker.call _ _ _

/-- A release hook adds no signals to those of the body. -/
theorem ends_releasing (release : Option FunctionId) (span : Span)
    {body : Run World Value}
    (hbody : Ends stage (Signal.Leaves odd inLoop) body fun _ => True) :
    Ends stage (Signal.Leaves odd inLoop)
      (worker.releasing release span body) fun _ => True := by
  cases release with
  | none => exact hbody
  | some id =>
      apply hbody.attempt.bind
      intro result hresult
      apply (hworker.call id .empty (some span)).toStmt.attempt.bind
      intro released hreleased
      cases result with
      | error exit => exact ends_fail hresult
      | ok value =>
          cases released with
          | ok other => exact ends_pure trivial
          | error exit => exact ends_fail hreleased

include hruns

theorem ends_stmtsFrom {last : Value} {ids : List StmtId}
    (hids : running.Shows (.stmts inLoop) ids) :
    Ends stage (Signal.Leaves odd inLoop) (worker.stmtsFrom last ids)
      fun _ => True := by
  induction ids generalizing last with
  | nil => exact ends_pure trivial
  | cons id rest ih =>
      obtain ⟨tree, hat⟩ := hids
      cases tree with
      | done => exact absurd hat (List.cons_ne_nil _ _)
      | next first others =>
          obtain ⟨_, _, ⟨⟩, hfirst, hrest⟩ := hat
          exact (hworker.stmt inLoop id (hruns.is ⟨first, hfirst⟩)).bind
            fun _ _ => ih ⟨others, hrest⟩

theorem ends_stmts {range : StmtRange}
    (hrange : running.ShowsStmts inLoop range) :
    Ends stage (Signal.Leaves odd inLoop) (worker.stmts range)
      fun _ => True := by
  obtain ⟨tree, ids, hrows, hat⟩ := hrange
  apply (ends_program hruns.here).bind
  rintro _ rfl
  apply (ends_row hrows).bind
  rintro _ rfl
  exact ends_stmtsFrom hworker hruns ⟨tree, hat⟩

theorem ends_blockWith (content : Container Value) {block : Block}
    (hblock : running.ShowsStmts inLoop block.stmts) :
    Ends stage (Signal.Leaves odd inLoop) (worker.blockWith content block)
      fun _ => True :=
  (ends_stmts hworker hruns hblock).inFrame content

theorem ends_block {block : Block}
    (hblock : running.ShowsStmts inLoop block.stmts) :
    Ends stage (Signal.Leaves odd inLoop) (worker.block block) fun _ => True :=
  ends_blockWith hworker hruns .empty hblock

theorem ends_branch {condition : ExprId} {thenBlock : Block}
    {elseBlock : Option Block} (hcondition : running.ShowsExpr condition)
    (hthen : running.ShowsStmts inLoop thenBlock.stmts)
    (helse : running.Shows (.other inLoop) elseBlock) :
    Ends stage (Signal.Leaves odd inLoop)
      (worker.branch condition thenBlock elseBlock) fun _ => True := by
  apply (ends_expr hworker hruns hcondition).toStmt.bind
  intro value _
  split
  · exact (ends_program hruns.here).bind fun _ _ =>
      (ends_found _).bind fun _ _ => ends_faultAt _ _
  · exact ends_block hworker hruns hthen
  · obtain ⟨tree, hat⟩ := helse
    cases tree with
    | noOther =>
        obtain rfl := hat
        exact ends_pure trivial
    | otherwise tree =>
        obtain ⟨block, rfl, hblock⟩ := hat
        exact ends_block hworker hruns ⟨tree, hblock⟩

/-- The rounds of a loop end `break` and `continue`. -/
theorem ends_rounds (key : Option String) (name : String) {body : Block}
    (hbody : running.ShowsStmts true body.stmts)
    (entries : List (Key × Value)) :
    Ends stage (Signal.Leaves odd inLoop)
      (worker.rounds key name body entries) fun _ => True := by
  induction entries with
  | nil => exact ends_pure trivial
  | cons entry rest ih =>
      apply (ends_ofExcept _).bind
      intro content _
      apply (ends_blockWith hworker hruns content hbody).attempt.bind
      intro result hresult
      cases result with
      | ok value => exact ih
      | error exit =>
          dsimp only
          split
          · exact ends_pure trivial
          · exact ih
          · next hbreak hcontinue =>
              apply ends_fail
              intro way hway
              cases way with
              | «return» value => trivial
              | «break» => exact absurd hway hbreak
              | «continue» => exact absurd hway hcontinue

theorem ends_loop (key : Option String) (name : String) {iterated : ExprId}
    {body : Block} (hiterated : running.ShowsExpr iterated)
    (hbody : running.ShowsStmts true body.stmts) :
    Ends stage (Signal.Leaves odd inLoop)
      (worker.loop key name iterated body) fun _ => True := by
  apply (ends_expr hworker hruns hiterated).toStmt.bind
  intro array _
  cases array with
  | array chain =>
      exact (ends_readHeap _).bind fun _ _ =>
        ends_rounds hworker hruns key name hbody _
  | _ =>
      exact (ends_program hruns.here).bind fun _ _ =>
        (ends_found _).bind fun _ _ => ends_faultAt _ _

theorem ends_attempt {body : Block} {recovery : CatchClause}
    (hbody : running.ShowsStmts inLoop body.stmts)
    (hrecovery : running.ShowsStmts inLoop recovery.body.stmts) :
    Ends stage (Signal.Leaves odd inLoop) (worker.attempt body recovery)
      fun _ => True := by
  apply (ends_block hworker hruns hbody).attempt.bind
  intro result hresult
  cases result with
  | ok value => exact ends_pure trivial
  | error exit =>
      apply (ends_program hruns.here).bind
      rintro _ rfl
      apply (ends_found _).bind
      intro kinds _
      split
      · exact ends_fail hresult
      · split
        · exact (ends_recoveryBindings _ _).bind fun content _ =>
            ends_blockWith hworker hruns content hrecovery
        · exact ends_fail hresult

theorem ends_resource {acquired : ExprId} (binding : Option String)
    {body : Block} (span : Span) (hacquired : running.ShowsExpr acquired)
    (hbody : running.ShowsStmts inLoop body.stmts) :
    Ends stage (Signal.Leaves odd inLoop)
      (worker.resource acquired binding body span) fun _ => True := by
  apply (ends_expr hworker hruns hacquired).toStmt.bind
  intro resource _
  apply (ends_hook? resource "enter").bind
  intro enter _
  apply (ends_hook? resource "release").bind
  intro release _
  apply (ends_entering hworker enter span resource).toStmt.bind
  intro bound _
  exact ends_releasing hworker release span
    (ends_blockWith hworker hruns _ hbody)

theorem ends_ownFrame (base : Chain) {body : Block}
    (hbody : running.ShowsStmts inLoop body.stmts) :
    Ends stage (Signal.Leaves odd inLoop) (worker.ownFrame base body)
      fun _ => True := by
  have hnew : Ends stage (Signal.Leaves odd inLoop)
      (withHeap fun heap => heap.addFrame .empty) fun _ => True :=
    ends_withHeap fun _ hdefined => hdefined.congr rfl
  apply hnew.bind
  intro own _
  have hread : Ends stage (Signal.Leaves odd inLoop) (Step.read Machine.env)
      fun _ => True :=
    ends_read fun _ _ => trivial
  apply hread.bind
  intro outer _
  have hscope : Ends stage (Signal.Leaves odd inLoop)
      (withHeap fun heap =>
        (heap.stack base outer).2.push own (heap.stack base outer).1)
      fun _ => True :=
    ends_withHeap fun heap hdefined =>
      hdefined.congr (Store.stack_eq heap base outer).2
  apply hscope.bind
  intro scope _
  exact ((ends_stmts hworker hruns hbody).inChain scope).bind fun _ _ =>
    ends_pure trivial

theorem ends_inherit (name parent : String) {body : Block}
    (hbody : running.ShowsStmts inLoop body.stmts) :
    Ends stage (Signal.Leaves odd inLoop) (worker.inherit name parent body)
      fun _ => True := by
  apply (ends_lookup _).bind
  intro value _
  cases value with
  | array base =>
      apply (ends_ownFrame hworker hruns base hbody).bind
      intro own _
      have hpush : Ends stage (Signal.Leaves odd inLoop)
          (withHeap fun heap => heap.push own base) fun _ => True :=
        ends_withHeap fun _ hdefined => hdefined.congr rfl
      exact hpush.bind fun _ _ => ends_bound _ _
  | _ => exact ends_fault _

theorem ends_operand {kind : StmtKind}
    (hkind : running.Shows (.stmt inLoop) kind) :
    Ends stage (Signal.Leaves odd inLoop) (worker.operand kind)
      fun _ => True := by
  obtain ⟨tree, hat⟩ := hkind
  cases tree with
  | assignBlock name body =>
      obtain ⟨block, rfl, hblock⟩ := hat
      exact ends_block hworker hruns ⟨body, hblock⟩
  | «return» value | raise value =>
      obtain ⟨value, rfl, hvalue⟩ := hat
      exact (ends_optional hworker hruns ⟨_, hvalue⟩).toStmt
  | branch condition body other =>
      obtain ⟨_, _, _, rfl, -⟩ := hat
      exact ends_pure trivial
  | loop | attempt | resource =>
      obtain ⟨_, _, rfl, -⟩ := hat
      exact ends_pure trivial
  | «break» | «continue» =>
      obtain rfl := hat
      exact ends_pure trivial
  | _ =>
      obtain ⟨_, rfl, -⟩ := hat
      exact ends_pure trivial

theorem ends_stmtKind (span : Span) (operand : Value) {kind : StmtKind}
    (hkind : running.Shows (.stmt inLoop) kind) :
    Ends stage (Signal.Leaves odd inLoop) (worker.stmtKind span operand kind)
      fun _ => True := by
  obtain ⟨tree, hat⟩ := hkind
  cases tree with
  | expr value =>
      obtain ⟨id, rfl, hid⟩ := hat
      exact (ends_expr hworker hruns ⟨value, hid⟩).toStmt
  | branch condition body other =>
      obtain ⟨id, block, elseBlock, rfl, hid, hblock, helse⟩ := hat
      exact ends_branch hworker hruns ⟨condition, hid⟩ ⟨body, hblock⟩
        ⟨other, helse⟩
  | scope body =>
      obtain ⟨block, rfl, hblock⟩ := hat
      exact ends_block hworker hruns ⟨body, hblock⟩
  | loop key name iterated body =>
      obtain ⟨id, block, rfl, hid, hblock⟩ := hat
      exact ends_loop hworker hruns key name ⟨iterated, hid⟩ ⟨body, hblock⟩
  | attempt body head recovery =>
      obtain ⟨block, clause, rfl, hblock, _, _, hclause⟩ := hat
      exact ends_attempt hworker hruns ⟨body, hblock⟩ ⟨recovery, hclause⟩
  | resource acquired binding body =>
      obtain ⟨id, block, rfl, hid, hblock⟩ := hat
      exact ends_resource hworker hruns binding span ⟨acquired, hid⟩
        ⟨body, hblock⟩
  | assignBlock name body =>
      obtain ⟨block, rfl, -⟩ := hat
      exact ends_bound _ _
  | funcBlock name params body =>
      obtain ⟨id, rfl, hfunc⟩ := hat
      have hshows : running.ShowsFunc name id := ⟨params, body, hfunc⟩
      exact (ends_newClosure _ (hruns.is ⟨name, hshows⟩)).bind fun _ _ =>
        ends_bound _ _
  | inheritBlock name parent body =>
      obtain ⟨block, rfl, hblock⟩ := hat
      exact ends_inherit hworker hruns name parent ⟨body, hblock⟩
  | «return» value =>
      obtain ⟨value, rfl, -⟩ := hat
      exact ends_signal trivial
  | raise value =>
      obtain ⟨value, rfl, -⟩ := hat
      exact (ends_textOf _).bind fun _ _ => ends_fault _
  | «break» =>
      obtain rfl := hat
      exact ends_signal (.inr rfl)
  | «continue» =>
      obtain rfl := hat
      exact ends_signal (.inr rfl)

theorem ends_evalStmt {id : StmtId} (hid : running.ShowsStmt inLoop id) :
    Ends stage (Signal.Leaves odd inLoop) (worker.evalStmt id)
      fun _ => True := by
  obtain ⟨tree, stmt, hrow, hat⟩ := hid
  apply (ends_program hruns.here).bind
  rintro _ rfl
  apply (ends_row hrow).bind
  rintro _ rfl
  apply (ends_operand hworker hruns ⟨tree, hat⟩).bind
  intro operand _
  exact (ends_stmtKind hworker hruns _ operand ⟨tree, hat⟩).located _

end Statements

section Calls

theorem ends_callFrame {content : Container Value}
    (supplied : List (String × Supplied)) :
    Ends stage odd (callFrame content supplied) fun _ => True := by
  induction supplied generalizing content with
  | nil => exact ends_pure trivial
  | cons entry rest ih =>
      obtain ⟨name, value | entries⟩ := entry
      · exact ih
      · exact (ends_newArray _).bind fun _ _ => ih

/-- The defaults of parameters are expressions of the program. -/
theorem shows_default {rows : List Param} (hrows : running.Shows .params rows)
    {param : Param} (hparam : param ∈ rows) {id : ExprId}
    (hdefault : param.default = some id) : running.ShowsExpr id := by
  induction rows with
  | nil => exact absurd hparam List.not_mem_nil
  | cons first rest ih =>
      obtain ⟨tree, hat⟩ := hrows
      cases tree with
      | noParams => exact absurd hat (List.cons_ne_nil _ _)
      | rest name =>
          obtain ⟨span, ⟨⟩⟩ := hat
          obtain rfl := List.mem_singleton.mp hparam
          cases hdefault
      | param name default others =>
          obtain ⟨value, span, _, ⟨⟩, hvalue, hrest⟩ := hat
          rcases List.mem_cons.mp hparam with rfl | hother
          · cases default with
            | absent => cases hvalue.symm.trans hdefault
            | present tree =>
                obtain ⟨_, hsome, hexpr⟩ := hvalue
                cases hsome.symm.trans hdefault
                exact ⟨tree, hexpr⟩
          · exact ih ⟨others, hrest⟩ hother

include hworker hruns

theorem ends_defaults {unbound : List (String × ExprId)}
    (hunbound : ∀ entry ∈ unbound, running.ShowsExpr entry.2) :
    Ends stage odd (worker.defaults unbound) fun _ => True := by
  induction unbound with
  | nil => exact ends_pure trivial
  | cons entry rest ih =>
      apply (ends_expr hworker hruns (hunbound entry List.mem_cons_self)).bind
      intro value _
      apply (ends_bind _ value).bind
      intro _ _
      exact ih fun other hother =>
        hunbound other (List.mem_cons_of_mem _ hother)

/-- A `return` ends where the body of the function does, and no other signal
leaves the body, since there is no loop around it. -/
theorem ends_runBody (outer : Nat) {func : FuncDef} (captured : Chain)
    (content : Container Value) {unbound : List (String × ExprId)}
    (hunbound : ∀ entry ∈ unbound, running.ShowsExpr entry.2)
    (hbody : running.ShowsStmts false func.body.stmts) :
    Ends { stage with number := outer } odd
      (worker.runBody stage.number func captured content unbound)
      fun _ => True := by
  have hscope : Ends { stage with number := outer } odd
      (withHeap fun heap => heap.pushNew content captured) fun _ => True :=
    ends_withHeap fun _ hdefined => hdefined.congr rfl
  apply hscope.bind
  intro scope _
  apply Ends.inProgram
  apply Ends.inChain
  apply (ends_defaults hworker hruns hunbound).bind
  intro _ _
  exact (ends_stmts hworker hruns hbody).catchReturn

end Calls

theorem ends_callScript
    (hworker : ∀ number, worker.Orderly { stage with number } odd)
    (name : String) {number : Nat} {definition : FuncId} (captured : Chain)
    (args : Container Value)
    (hdefined : (FunctionBody.script number definition captured).DefinedIn
      stage.programs) :
    Ends stage odd (worker.callScript name number definition captured args)
      fun _ => True := by
  obtain ⟨program, hprogram, hnumber, title, paramTree, bodyTree, func, hrow,
    _, ⟨params, hparams, hat⟩, hbody⟩ := hdefined
  have hread : Ends stage odd
      (Step.read fun machine => machine.programs[number]?)
      (· = some program) := by
    apply ends_read
    intro machine hin
    rw [hin.programs, hprogram]
  apply hread.bind
  rintro _ rfl
  apply (ends_row rfl).bind
  rintro _ rfl
  apply (ends_row hrow).bind
  rintro _ rfl
  apply (ends_row hparams).bind
  rintro _ rfl
  have hbind : Ends stage odd
      (ofExcept (bindArguments (functionLabel name) params args))
      fun bindings => bindings.From (fun _ => True) params := by
    cases hbindings : bindArguments (functionLabel name) params args with
    | ok bindings =>
        exact ends_pure (bindArguments_from (fun _ _ => trivial) hbindings)
    | error cause => exact ends_fault cause
  apply hbind.bind
  intro bindings hfrom
  apply (ends_callFrame bindings.supplied).bind
  intro content _
  have hruns : ({ stage with number } : Stage World).Runs program :=
    ⟨hprogram, hnumber⟩
  refine ends_runBody (hworker number) hruns stage.number captured content
    (fun entry hentry => ?_) ⟨bodyTree, hbody⟩
  obtain ⟨param, hparam, hdefault⟩ := hfrom.defaults entry hentry
  exact shows_default ⟨paramTree, hat⟩ hparam hdefault

theorem ends_evalCall {natives : Natives World}
    (hnatives : natives.Minds stage.keeps odd)
    (hworker : ∀ number, worker.Orderly { stage with number } odd)
    (id : FunctionId) (args : Container Value) (site : Option Span) :
    Ends stage odd (worker.evalCall natives id args site) fun _ => True := by
  have hread : Ends stage odd (readHeap fun heap => heap.function? id)
      fun row => ∀ function, row = some function →
        function.body.DefinedIn stage.programs := by
    apply ends_read
    intro machine hin function hfunction
    exact hin.defined function (Array.mem_of_getElem? hfunction)
  apply hread.bind
  intro row hdefined
  apply (ends_found row).bind
  intro function hrow
  apply Ends.inCall
  split
  · exact ends_askHost hnatives _ _
  · next number definition captured hbody =>
      exact ends_callScript hworker _ captured _ (hbody ▸ hdefined function hrow)

/-- Evaluation is orderly in one program if it is one step deeper, whatever
program runs there. -/
theorem Orderly.perform {natives : Natives World}
    (hnatives : natives.Minds stage.keeps odd)
    (hworker : ∀ number, worker.Orderly { stage with number } odd) :
    (perform natives worker).Orderly stage odd where
  expr id hid := by
    obtain ⟨running, hprogram, hnumber, hshows⟩ := hid
    exact ends_evalExpr (hworker stage.number) ⟨hprogram, hnumber⟩ hshows
  stmt inLoop id hid := by
    obtain ⟨running, hprogram, hnumber, hshows⟩ := hid
    exact ends_evalStmt (hworker stage.number) ⟨hprogram, hnumber⟩ hshows
  call function args site :=
    ends_evalCall hnatives hworker function args site

end Worker

end ChainScript
