import ChainScript.Proofs.SafeExpressions

/-
Every form of statement is safe, if its parts and all calls are.
-/

namespace ChainScript

open Step Run

variable {World : Type} {custody : Custody World}

namespace Worker

/-- The worker is safe for all statements of a program, in every scope. -/
def ServesStmts (custody : Custody World) (worker : Worker World)
    (site : Site) (older : Program) : Prop :=
  ∀ env base id, base.Open env → older.HasStmt id →
    Safe custody (site.inScope env) base (worker (.stmt id)) Store.Holds

section Parts

variable {site : Site} {base : Store}

theorem safe_bound (hopen : base.Open site.env) (name : String) {value : Value}
    (hvalue : base.Holds value) :
    Safe custody site base (bound name value) Store.Holds := by
  apply (safe_bindKey hopen _ hvalue).bind
  intro store _ hmore _
  exact safe_pure fun _ hlater => hvalue.extends (hmore.trans hlater).toExtends

theorem holdsAll_single (name : String) {value : Value}
    (hvalue : base.Holds value) :
    base.HoldsAll (Container.empty.set (.badge name) value) :=
  Container.All.set Container.all_empty _ hvalue

theorem safe_roundBindings (key : Option String) (name : String)
    {entry : Key × Value} (hentry : base.Holds entry.2) :
    Safe custody site base (ofExcept (roundBindings key name entry))
      Store.HoldsAll :=
  safe_ofExcept (fun _ hfault => bare_roundBindings hfault)
    fun _ hround store hmore => roundBindings_all
      (fun _ hplain => hplain.holds store) (hentry.extends hmore.toExtends)
      hround

/-- The value that describes a fault is held if those of the fault are. -/
theorem safe_caughtValue {cause : Cause}
    (hcause : base.HoldsExit (.ofCause cause)) :
    Safe custody site base (caughtValue cause) Store.Holds := by
  unfold caughtValue
  split
  · next value hraised =>
      exact safe_pure fun _ hmore =>
        (hcause value (Cause.mem_values_of_caught hraised)).extends
          hmore.toExtends
  · next content hdescribed =>
      exact safe_newArray ((Cause.plain_of_caught hdescribed).mono
        fun _ hplain => hplain.holds base)

theorem safe_recoveryBindings (binding : Option String) {cause : Cause}
    (hcause : base.HoldsExit (.ofCause cause)) :
    Safe custody site base (recoveryBindings binding cause)
      Store.HoldsAll := by
  cases binding with
  | none => exact safe_pure fun _ _ => Container.all_empty
  | some name =>
      apply (safe_caughtValue hcause).bind
      intro _ _ _ hvalue
      exact safe_pure fun _ hmore =>
        holdsAll_single name (hvalue.extends hmore.toExtends)

/-- A hook that was found is a function that exists. -/
theorem safe_hook? (resource : Value) (label : String) :
    Safe custody site base (hook? resource label) fun store found =>
      ∀ id, found = some id → store.Holds (.function id) := by
  have hnone : Safe custody site base (pure none) fun store found =>
      ∀ id, found = some id → store.Holds (.function id) :=
    safe_pure fun _ _ _ hid => nomatch hid
  cases resource with
  | array chain =>
      have hread : Safe custody site base
          (readHeap fun heap => heap.lookup? chain (.badge label))
          fun store found => ∀ value, found = some value → store.Holds value :=
        safe_readHeap fun store _ hsound value hvalue =>
          hsound.holds_lookup? hvalue
      apply hread.bind
      intro store found hmore hfound
      split
      · next id =>
          apply safe_pure
          intro _ hlater other hother
          cases hother
          exact (hfound _ rfl).extends hlater.toExtends
      · exact hnone.later hmore
  | _ => exact hnone

end Parts

variable {worker : Worker World} {site : Site} {program older : Program}
  (hprogram : site.programs[site.program]? = some program)
  (hgrows : older.Grows program)
  (hstmts : worker.ServesStmts custody site older)
  (hexprs : worker.ServesExprs custody site older)
  (hcalls : worker.ServesCalls custody site)
  {base : Store}

section Blocks

include hstmts

theorem safe_stmtsFrom {env : Chain} (hopen : base.Open env) {last : Value}
    (hlast : base.Holds last) {ids : List StmtId}
    (hids : ∀ id ∈ ids, older.HasStmt id) :
    Safe custody (site.inScope env) base (worker.stmtsFrom last ids)
      Store.Holds := by
  induction ids generalizing base last with
  | nil => exact safe_pure fun _ hmore => hlast.extends hmore.toExtends
  | cons id rest ih =>
      have hfirst := hstmts env base id hopen (hids id List.mem_cons_self)
      apply hfirst.bind
      intro store value hmore hvalue
      exact ih (hopen.grows hmore) hvalue fun other hother =>
        hids other (List.mem_cons_of_mem _ hother)

include hprogram hgrows

theorem safe_stmts {env : Chain} (hopen : base.Open env) {range : StmtRange}
    (hrange : older.HasStmts range) :
    Safe custody (site.inScope env) base (worker.stmts range)
      Store.Holds := by
  obtain ⟨ids, hrows, hids⟩ := hrange
  have hfound : (site.inScope env).programs[(site.inScope env).program]? =
      some program := hprogram
  apply (safe_program hfound).bind
  rintro first _ hfirst rfl
  apply (safe_row (hgrows.stmtList? hrows)).bind
  rintro second _ hsecond rfl
  have hnull : second.Holds .null := trivial
  exact safe_stmtsFrom hstmts (hopen.grows (hfirst.trans hsecond)) hnull hids

theorem safe_blockWith (henv : base.Reaches site.env)
    {content : Container Value} (hcontent : base.HoldsAll content)
    {block : Block} (hblock : older.HasStmts block.stmts) :
    Safe custody site base (worker.blockWith content block) Store.Holds :=
  safe_inFrame hcontent henv fun _ _ _ hopen =>
    safe_stmts hprogram hgrows hstmts hopen hblock

theorem safe_block (henv : base.Reaches site.env) {block : Block}
    (hblock : older.HasStmts block.stmts) :
    Safe custody site base (worker.block block) Store.Holds :=
  safe_blockWith hprogram hgrows hstmts henv Container.all_empty hblock

theorem safe_rounds (henv : base.Reaches site.env) (key : Option String)
    (name : String) {body : Block} (hbody : older.HasStmts body.stmts)
    {entries : List (Key × Value)}
    (hentries : ∀ entry ∈ entries, base.Holds entry.2) :
    Safe custody site base (worker.rounds key name body entries)
      Store.Holds := by
  induction entries generalizing base with
  | nil => exact safe_pure fun _ _ => trivial
  | cons entry rest ih =>
      have hentry := hentries entry List.mem_cons_self
      apply (safe_roundBindings key name hentry).bind
      intro first content hfirst hcontent
      have henv' := henv.extends hfirst.toExtends
      have hround := (safe_blockWith hprogram hgrows hstmts henv' hcontent
        hbody).attempt
      apply hround.bind
      intro second result hsecond hresult
      have hmore := hfirst.trans hsecond
      have hrest := ih (henv.extends hmore.toExtends) fun other hother =>
        (hentries other (List.mem_cons_of_mem _ hother)).extends
          hmore.toExtends
      cases result with
      | ok value => exact hrest
      | error exit =>
          dsimp only
          split
          · exact safe_pure fun _ _ => trivial
          · exact hrest
          · exact safe_fail hresult

theorem safe_attempt (henv : base.Reaches site.env) {body : Block}
    {recovery : CatchClause} (hbody : older.HasStmts body.stmts)
    (hkinds : older.HasNames recovery.kinds)
    (hrecovery : older.HasStmts recovery.body.stmts) :
    Safe custody site base (worker.attempt body recovery) Store.Holds := by
  apply (safe_block hprogram hgrows hstmts henv hbody).attempt.bind
  intro first result hfirst hresult
  cases result with
  | ok value => exact safe_pure fun _ hmore => hresult.extends hmore.toExtends
  | error exit =>
      obtain ⟨kinds, hrows⟩ := hkinds
      apply (safe_program hprogram).bind
      rintro second _ hsecond rfl
      apply (safe_row (hgrows.names? hrows)).bind
      rintro third _ hthird rfl
      have hlater := hsecond.trans hthird
      have hexit : third.HoldsExit exit := hresult.extends hlater.toExtends
      split
      · exact safe_fail hexit
      · next cause hreason =>
          have hcause : third.HoldsExit (.ofCause cause) :=
            Store.holdsExit_congr hreason.symm hexit
          split
          · apply (safe_recoveryBindings recovery.binding hcause).bind
            intro fourth content hfourth hcontent
            have henv' := henv.extends
              (hfirst.trans (hlater.trans hfourth)).toExtends
            exact safe_blockWith hprogram hgrows hstmts henv' hcontent
              hrecovery
          · exact safe_fail hexit

/-- The frame of an inheriting block is sealed when the block is done. -/
theorem safe_ownFrame (henv : base.Reaches site.env) {parent : Chain}
    (hparent : base.Holds (.array parent)) {body : Block}
    (hbody : older.HasStmts body.stmts) :
    Safe custody site base (worker.ownFrame parent body)
      fun store own => own ∈ store.sealed := by
  intro machine store hmore hat
  obtain rfl : site = machine.site := hat.site_eq.symm
  obtain ⟨heap, programs, number, outer, calls, world⟩ := machine
  obtain rfl : heap = store.heap := hat.heap_eq
  let own := store.heap.addFrame .empty
  let stacked := own.2.stack parent outer
  let pushed := stacked.2.push own.1 stacked.1
  let inner : Machine World :=
    ⟨pushed.2, programs, number, outer, calls, world⟩
  obtain ⟨opened, hheap, hsound, hopened, hopen⟩ := hat.sound.pushOwn
    (hparent.extends hmore.toExtends) (henv.extends hmore.toExtends)
  have hinner : inner.At custody inner.site opened :=
    ⟨rfl, hheap.symm, hsound, custody.extends_ hat.world hopened.toExtends⟩
  have hstmts' : Safe custody (inner.site.inScope pushed.1) opened
      (worker.stmts body.stmts) Store.Holds :=
    safe_stmts hprogram hgrows hstmts hopen hbody
  obtain ⟨after, hafter, hat', hsafe⟩ :=
    hstmts'.inChain inner opened (.refl _) hinner
  -- The innermost frame was not sealed while the block ran, so it can be now.
  obtain ⟨link, rest, heq, hunsealed⟩ := (hopen.grows hafter).unsealed
  obtain ⟨rfl, rfl⟩ := List.cons.inj heq
  have hlt := (hopen.grows hafter).reaches own.1 List.mem_cons_self
  have hsealed : store.Grows (after.markSealed own.1) :=
    (hopened.trans hafter).markSealed (Nat.le_refl _)
  have hat'' : (inChain pushed.1 (worker.stmts body.stmts) inner).2.At custody
      inner.site (after.markSealed own.1) :=
    ⟨hat'.site_eq, hat'.heap_eq, hat'.sound.markSealed hlt hunsealed,
      custody.extends_ hat'.world (Store.extends_markSealed _)⟩
  refine ⟨after.markSealed own.1, hsealed, ?_⟩
  change ((inChain pushed.1 (worker.stmts body.stmts) >>= fun _ =>
    (pure own.1 : Run World FrameId)) inner).2.At _ _ _ ∧
    Outcome.Safe _ _ ((inChain pushed.1 (worker.stmts body.stmts) >>= fun _ =>
      (pure own.1 : Run World FrameId)) inner).1
  rw [bind_apply]
  rcases hend : inChain pushed.1 (worker.stmts body.stmts) inner with
    ⟨outcome, stopped⟩
  rw [hend] at hat'' hsafe
  cases outcome with
  | ok value => exact ⟨hat'', List.mem_cons_self⟩
  | error exit =>
      exact ⟨hat'', Store.HoldsExit.extends hsafe
        (Store.extends_markSealed _)⟩
  | halted reason => exact hsafe.elim

end Blocks

section Hooks

include hcalls

theorem safe_entering (enter : Option FunctionId) (span : Span)
    {resource : Value} (hresource : base.Holds resource)
    (henter : ∀ id, enter = some id → base.Holds (.function id)) :
    Safe custody site base (worker.entering enter span resource)
      Store.Holds := by
  cases enter with
  | none => exact safe_pure fun _ hmore => hresource.extends hmore.toExtends
  | some id =>
      exact hcalls site.env base id .empty (some span) (henter id rfl)
        Container.all_empty

theorem safe_releasing (release : Option FunctionId) (span : Span)
    {body : Run World Value}
    (hrelease : ∀ id, release = some id → base.Holds (.function id))
    (hbody : Safe custody site base body Store.Holds) :
    Safe custody site base (worker.releasing release span body)
      Store.Holds := by
  cases release with
  | none => exact hbody
  | some id =>
      apply hbody.attempt.bind
      intro first result hfirst hresult
      have hid := (hrelease id rfl).extends hfirst.toExtends
      have hcall := hcalls site.env first id .empty (some span) hid
        Container.all_empty
      apply hcall.attempt.bind
      intro second released hsecond hreleased
      cases result with
      | error exit =>
          exact safe_fail (Store.HoldsExit.extends hresult hsecond.toExtends)
      | ok value =>
          cases released with
          | ok _ =>
              exact safe_pure fun _ hmore =>
                Store.Holds.extends hresult (hsecond.trans hmore).toExtends
          | error exit => exact safe_fail hreleased

end Hooks

section Forms

include hprogram hgrows hstmts hexprs

theorem safe_branch (hopen : base.Open site.env) {condition : ExprId}
    {thenBlock : Block} {elseBlock : Option Block}
    (hcondition : older.HasExpr condition)
    (hthen : older.HasStmts thenBlock.stmts)
    (helse : ∀ block, elseBlock = some block → older.HasStmts block.stmts) :
    Safe custody site base (worker.branch condition thenBlock elseBlock)
      Store.Holds := by
  apply (safe_expr hexprs hopen hcondition).bind
  intro store value hmore _
  have henv := hopen.reaches.extends hmore.toExtends
  split
  · next cause hfault =>
      obtain ⟨expr, hrow⟩ := hcondition
      apply (safe_program hprogram).bind
      rintro first _ _ rfl
      apply (safe_row (hgrows.expr? hrow)).bind
      intro _ found _ _
      exact safe_faultAt (bare_toCondition hfault)
  · exact safe_block hprogram hgrows hstmts henv hthen
  · cases elseBlock with
    | none => exact safe_pure fun _ _ => trivial
    | some block =>
        exact safe_block hprogram hgrows hstmts henv (helse block rfl)

theorem safe_loop (hopen : base.Open site.env) (key : Option String)
    (name : String) {iterated : ExprId} {body : Block}
    (hiterated : older.HasExpr iterated) (hbody : older.HasStmts body.stmts) :
    Safe custody site base (worker.loop key name iterated body)
      Store.Holds := by
  apply (safe_expr hexprs hopen hiterated).bind
  intro first array hfirst _
  have henv := hopen.reaches.extends hfirst.toExtends
  cases array with
  | array chain =>
      have hread : Safe custody site first
          (readHeap fun heap => heap.flatten chain) Store.HoldsAll :=
        safe_readHeap fun _ _ hsound => hsound.holdsAll_flatten chain
      apply hread.bind
      intro second content hsecond hcontent
      exact safe_rounds hprogram hgrows hstmts (henv.extends hsecond.toExtends)
        key name hbody hcontent
  | _ =>
      obtain ⟨expr, hrow⟩ := hiterated
      apply (safe_program hprogram).bind
      rintro second _ _ rfl
      apply (safe_row (hgrows.expr? hrow)).bind
      intro _ found _ _
      exact safe_faultAt rfl

omit hexprs in
theorem safe_inherit (hopen : base.Open site.env) (name parent : String)
    {body : Block} (hbody : older.HasStmts body.stmts) :
    Safe custody site base (worker.inherit name parent body)
      Store.Holds := by
  apply (safe_lookup _).bind
  intro first value hfirst hvalue
  cases value with
  | array chain =>
      have hopen' := hopen.grows hfirst
      apply (safe_ownFrame hprogram hgrows hstmts hopen'.reaches hvalue
        hbody).bind
      intro second own hsecond hown
      have hpush : Safe custody site second
          (withHeap fun heap => heap.push own chain)
          fun store made => store.Holds (.array made) := by
        apply safe_withHeap
        intro store hmore hsound
        have hparent :=
          hvalue.extends (hsecond.trans hmore).toExtends
        refine ⟨store.addLink own chain, rfl, hsound.addLink own chain,
          Store.grows_addLink own chain, fun frame hframe => ?_,
          hparent.2.addLink own⟩
        rcases List.mem_cons.mp hframe with rfl | hrest
        · exact hmore.sealed_suffix.subset hown
        · exact hparent.1 frame hrest
      apply hpush.bind
      intro third made hthird hmade
      exact safe_bound (hopen'.grows (hsecond.trans hthird)) name hmade
  | _ => exact safe_fault rfl

include hcalls

theorem safe_resource (hopen : base.Open site.env) {acquired : ExprId}
    (binding : Option String) {body : Block} (span : Span)
    (hacquired : older.HasExpr acquired)
    (hbody : older.HasStmts body.stmts) :
    Safe custody site base (worker.resource acquired binding body span)
      Store.Holds := by
  apply (safe_expr hexprs hopen hacquired).bind
  intro first resource hfirst hresource
  apply (safe_hook? resource "enter").bind
  intro second enter hsecond henter
  apply (safe_hook? resource "release").bind
  intro third release hthird hrelease
  have hentering := safe_entering hcalls enter span
    (hresource.extends (hsecond.trans hthird).toExtends)
    fun id hid => (henter id hid).extends hthird.toExtends
  apply hentering.bind
  intro fourth bound hfourth hbound
  have hlater := hfirst.trans (hsecond.trans (hthird.trans hfourth))
  have hcontent : fourth.HoldsAll (resourceBindings binding bound) := by
    cases binding with
    | none => exact Container.all_empty
    | some name => exact holdsAll_single name hbound
  apply safe_releasing hcalls release span
    (fun id hid => (hrelease id hid).extends hfourth.toExtends)
  exact safe_blockWith hprogram hgrows hstmts
    (hopen.reaches.extends hlater.toExtends) hcontent hbody

omit hcalls in
theorem safe_operand (hopen : base.Open site.env) {kind : StmtKind}
    (hkind : kind.RefersInto older) :
    Safe custody site base (worker.operand kind) Store.Holds := by
  cases kind with
  | assignBlock name body =>
      exact safe_block hprogram hgrows hstmts hopen.reaches hkind
  | «return» value | raise value => exact safe_optional hexprs hopen hkind
  | _ => exact safe_pure fun _ _ => trivial

theorem safe_stmtKind (hopen : base.Open site.env) (span : Span)
    {operand : Value} (hoperand : base.Holds operand) {kind : StmtKind}
    (hkind : kind.RefersInto older) :
    Safe custody site base (worker.stmtKind span operand kind) Store.Holds := by
  cases kind with
  | expr value => exact safe_expr hexprs hopen hkind
  | branch condition thenBlock elseBlock =>
      exact safe_branch hprogram hgrows hstmts hexprs hopen hkind.1 hkind.2.1
        hkind.2.2
  | scope body =>
      exact safe_block hprogram hgrows hstmts hopen.reaches hkind
  | loop key name iterated body =>
      exact safe_loop hprogram hgrows hstmts hexprs hopen key name hkind.1
        hkind.2
  | attempt body recovery =>
      exact safe_attempt hprogram hgrows hstmts hopen.reaches hkind.1
        hkind.2.1 hkind.2.2
  | resource acquired binding body =>
      exact safe_resource hprogram hgrows hstmts hexprs hcalls hopen binding
        span hkind.1 hkind.2
  | assignBlock name body => exact safe_bound hopen name hoperand
  | funcBlock name definition =>
      exact (safe_newClosure name hopen.reaches hprogram
        (Program.HasFunc.grows hkind hgrows)).bind fun _ _ hmore hvalue =>
          safe_bound (hopen.grows hmore) name hvalue
  | inheritBlock name parent body =>
      exact safe_inherit hprogram hgrows hstmts hopen name parent hkind
  | «return» value =>
      exact safe_fail fun other hother =>
        List.mem_singleton.mp hother ▸ hoperand
  | «break» => exact safe_fail fun _ hvalue => absurd hvalue List.not_mem_nil
  | «continue» =>
      exact safe_fail fun _ hvalue => absurd hvalue List.not_mem_nil
  | raise value =>
      apply (safe_textOf hoperand).bind
      intro _ _ hmore _
      exact safe_fail fun other hother =>
        List.mem_singleton.mp hother ▸ hoperand.extends hmore.toExtends

omit hexprs hgrows hstmts in
/-- A statement is safe if its parts are, which are all older. -/
theorem safe_evalStmt (hbuilt : program.Built) (hopen : base.Open site.env)
    {id : StmtId} (hid : program.HasStmt id)
    (hexprs : worker.ServesExprs custody site program)
    (hstmts : ∀ older : Program, older.Grows program →
      older.stmts.size = id.index → worker.ServesStmts custody site older) :
    Safe custody site base (worker.evalStmt id) Store.Holds := by
  obtain ⟨stmt, hrow⟩ := hid
  obtain ⟨older, _, hgrows, hsize, hkind⟩ := hbuilt.stmt_addedAt hrow
  have hparts : worker.ServesExprs custody site older :=
    fun env base id hopen hid => hexprs env base id hopen (hid.grows hgrows)
  apply (safe_program hprogram).bind
  rintro first _ hfirst rfl
  apply (safe_row hrow).bind
  rintro second _ hsecond rfl
  have hopened := hopen.grows (hfirst.trans hsecond)
  have hblocks := hstmts older hgrows hsize
  apply (safe_operand hprogram hgrows hblocks hparts hopened hkind).bind
  intro third operand hthird hoperand
  exact (safe_stmtKind hprogram hgrows hblocks hparts hcalls
    (hopened.grows hthird) _ hoperand hkind).located _

end Forms

end Worker

end ChainScript
