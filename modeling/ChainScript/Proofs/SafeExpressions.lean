import ChainScript.Proofs.SafeSteps

/-
Every form of expression is safe, if its parts and all calls are.

The parts of an expression were there before it, in an older state of its
program.  A worker has to be safe for those alone.
-/

namespace ChainScript

open Step Run

variable {World : Type} {custody : Custody World}

namespace Worker

/-- The worker is safe for calls, wherever they are made from. -/
def ServesCalls (custody : Custody World) (worker : Worker World)
    (site : Site) : Prop :=
  ∀ env base function args span, base.Holds (.function function) →
    base.HoldsAll args →
    Safe custody (site.inScope env) base (worker (.call function args span))
      Store.Holds

/-- The worker is safe for all expressions of a program, in every scope. -/
def ServesExprs (custody : Custody World) (worker : Worker World)
    (site : Site) (older : Program) : Prop :=
  ∀ env base id, base.Open env → older.HasExpr id →
    Safe custody (site.inScope env) base (worker (.expr id)) Store.Holds

theorem safe_memberOf {site : Site} {base : Store} (receiver : Value)
    (key : Key) :
    Safe custody site base (memberOf receiver key) Store.Holds := by
  cases receiver with
  | array chain =>
      have hread : Safe custody site base
          (readHeap fun heap => heap.lookup? chain key)
          fun store found => ∀ value, found = some value → store.Holds value :=
        safe_readHeap fun store _ hsound value hvalue =>
          hsound.holds_lookup? hvalue
      apply hread.bind
      intro store found _ hfound
      cases found with
      | some value =>
          exact safe_pure fun _ hgrows =>
            (hfound value rfl).extends hgrows.toExtends
      | none => exact safe_fault rfl
  | _ => exact safe_fault rfl

variable {worker : Worker World} {site : Site} {program older : Program}
  (hprogram : site.programs[site.program]? = some program)
  (hgrows : older.Grows program)
  (hexprs : worker.ServesExprs custody site older)
  (hcalls : worker.ServesCalls custody site)
  {base : Store}

include hexprs

theorem safe_expr (hopen : base.Open site.env) {id : ExprId}
    (hid : older.HasExpr id) :
    Safe custody site base (worker.expr id) Store.Holds :=
  hexprs site.env base id hopen hid

theorem safe_optional (hopen : base.Open site.env) {value : Option ExprId}
    (hvalue : ∀ id, value = some id → older.HasExpr id) :
    Safe custody site base (worker.optional value) Store.Holds := by
  cases value with
  | none => exact safe_pure fun _ _ => trivial
  | some id => exact safe_expr hexprs hopen (hvalue id rfl)

theorem safe_entry (hopen : base.Open site.env) {content : Container Value}
    (hcontent : base.HoldsAll content) {entry : Entry}
    (hentry : entry.kind.RefersInto older) :
    Safe custody site base (worker.entry content entry) Store.HoldsAll := by
  unfold Worker.entry
  cases hkind : entry.kind with
  | item id =>
      rw [hkind] at hentry
      apply (safe_expr hexprs hopen hentry).bind
      intro store value hmore hvalue
      exact safe_pure fun after hlater => Container.All.append
        (hcontent.extends (hmore.trans hlater).toExtends)
        (hvalue.extends hlater.toExtends)
  | keyed key id =>
      rw [hkind] at hentry
      apply (safe_expr hexprs hopen hentry).bind
      intro store value hmore hvalue
      exact safe_pure fun after hlater => Container.All.set
        (hcontent.extends (hmore.trans hlater).toExtends) key
        (hvalue.extends hlater.toExtends)
  | expand name =>
      apply ((safe_lookup _).located entry.span).bind
      intro store value hmore hvalue
      cases value with
      | array chain =>
          have hread : Safe custody site store
              (readHeap fun heap => heap.flatten chain) Store.HoldsAll :=
            safe_readHeap fun _ _ hsound => hsound.holdsAll_flatten chain
          apply hread.bind
          intro middle others hmiddle hothers
          have hboth := hmore.trans hmiddle
          exact safe_pure fun after hlater => Container.All.expand
            (hcontent.extends (hboth.trans hlater).toExtends)
            (hothers.extends hlater.toExtends)
      | _ => exact safe_faultAt rfl

theorem safe_entriesFrom (hopen : base.Open site.env)
    {content : Container Value} (hcontent : base.HoldsAll content)
    {entries : List Entry}
    (hentries : ∀ entry ∈ entries, entry.kind.RefersInto older) :
    Safe custody site base (worker.entriesFrom content entries)
      Store.HoldsAll := by
  induction entries generalizing base content with
  | nil => exact safe_pure fun _ hmore => hcontent.extends hmore.toExtends
  | cons first rest ih =>
      have hfirst := hentries first List.mem_cons_self
      apply (safe_entry hexprs hopen hcontent hfirst).bind
      intro store content hmore hcontent
      exact ih (hopen.grows hmore) hcontent fun entry hentry =>
        hentries entry (List.mem_cons_of_mem _ hentry)

theorem safe_logical (hopen : base.Open site.env) (op : BinaryOp)
    {left right : ExprId} (hleft : older.HasExpr left)
    (hright : older.HasExpr right) :
    Safe custody site base (worker.logical op left right) Store.Holds := by
  apply (safe_expr hexprs hopen hleft).bind
  intro first value hfirst _
  apply (safe_toCondition _ value).bind
  intro second condition hsecond _
  split
  · exact safe_pure fun _ _ => trivial
  · have hlater := hopen.grows (hfirst.trans hsecond)
    apply (safe_expr hexprs hlater hright).bind
    intro third other _ _
    apply (safe_toCondition _ other).bind
    intro _ _ _ _
    exact safe_pure fun _ _ => trivial

theorem safe_binary (hopen : base.Open site.env) (op : BinaryOp)
    {left right : ExprId} (hleft : older.HasExpr left)
    (hright : older.HasExpr right) :
    Safe custody site base (worker.binary op left right) Store.Holds := by
  unfold binary
  split
  · exact safe_logical hexprs hopen _ hleft hright
  · exact safe_logical hexprs hopen _ hleft hright
  · apply (safe_expr hexprs hopen hleft).bind
    intro first one hfirst hone
    apply (safe_expr hexprs (hopen.grows hfirst) hright).bind
    intro second other hsecond hother
    have hread : Safe custody site second
        (readHeap fun heap => heap.binary op one other)
        fun _ outcome => ∃ result, outcome = .ofExcept result ∧
          PlainResult result :=
      safe_readHeap fun store hmore hsound => hsound.binary op
        (hone.extends (hsecond.trans hmore).toExtends)
        (hother.extends hmore.toExtends)
    apply hread.bind
    rintro store _ _ ⟨result, rfl, hplain⟩
    cases result with
    | ok value => exact safe_pure fun after _ => hplain.holds after
    | error cause => exact safe_fault hplain

theorem safe_composeExpr (hopen : base.Open site.env) {left right : ExprId}
    (hleft : older.HasExpr left) (hright : older.HasExpr right) :
    Safe custody site base (worker.compose left right) Store.Holds := by
  apply (safe_expr hexprs hopen hleft).bind
  intro first one hfirst hone
  apply (safe_expr hexprs (hopen.grows hfirst) hright).bind
  intro second other hsecond hother
  apply (safe_compose (hone.extends hsecond.toExtends) hother).bind
  intro third result _ hresult
  exact safe_composed hresult

include hprogram hgrows

theorem safe_entries (hopen : base.Open site.env) {range : EntryRange}
    (hrange : older.HasEntries range) :
    Safe custody site base (worker.entries range) Store.HoldsAll := by
  obtain ⟨rows, hrows, hentries⟩ := hrange
  apply (safe_program hprogram).bind
  rintro first _ hfirst rfl
  apply (safe_row (hgrows.entries? hrows)).bind
  rintro second _ hsecond rfl
  exact safe_entriesFrom hexprs (hopen.grows (hfirst.trans hsecond))
    Container.all_empty hentries

include hcalls

theorem safe_callExpr (hopen : base.Open site.env) {callee : ExprId}
    {args : EntryRange} (hcallee : older.HasExpr callee)
    (hargs : older.HasEntries args) (span : Span) :
    Safe custody site base (worker.callExpr callee args span)
      Store.Holds := by
  apply (safe_expr hexprs hopen hcallee).bind
  intro first function hfirst hfunction
  apply (safe_entries hprogram hgrows hexprs (hopen.grows hfirst) hargs).bind
  intro second content hsecond hcontent
  cases function with
  | function id =>
      exact hcalls site.env second id content (some span)
        (hfunction.extends hsecond.toExtends) hcontent
  | _ => exact safe_fault rfl

theorem safe_exprKind (hopen : base.Open site.env) (span : Span)
    {kind : ExprKind} (hkind : kind.RefersInto older) :
    Safe custody site base (worker.exprKind span kind) Store.Holds := by
  cases kind with
  | null | bool | int | float | str => exact safe_pure fun _ _ => trivial
  | ident name => exact safe_lookup _
  | badge key => exact safe_lookup key
  | member receiver key =>
      exact (safe_expr hexprs hopen hkind).bind fun _ value _ _ =>
        safe_memberOf value key
  | index receiver key =>
      apply (safe_expr hexprs hopen hkind.1).bind
      intro first array hfirst _
      apply (safe_expr hexprs (hopen.grows hfirst) hkind.2).bind
      intro second value _ _
      have hkey : Safe custody site second (ofExcept value.key)
          fun _ _ => True :=
        safe_ofExcept (fun _ hfault => bare_key hfault) fun _ _ _ _ => trivial
      exact hkey.bind fun _ key _ _ => safe_memberOf array key
  | array range =>
      exact (safe_entries hprogram hgrows hexprs hopen hkind).bind
        fun _ _ _ hcontent => safe_newArray hcontent
  | args range =>
      exact (safe_entries hprogram hgrows hexprs hopen hkind).bind
        fun _ _ _ hcontent => safe_newArray hcontent
  | binary op left right =>
      exact safe_binary hexprs hopen op hkind.1 hkind.2
  | unary op operand =>
      exact (safe_expr hexprs hopen hkind).bind fun _ value _ _ =>
        safe_plainResult (plain_unary op value)
  | compose left right => exact safe_composeExpr hexprs hopen hkind.1 hkind.2
  | call callee args =>
      exact safe_callExpr hprogram hgrows hexprs hcalls hopen hkind.1 hkind.2
        span
  | assign target value =>
      apply (safe_expr hexprs hopen hkind).bind
      intro store value hmore hvalue
      apply (safe_bindKey (hopen.grows hmore) target hvalue).bind
      intro after _ hafter _
      exact safe_pure fun _ hlater =>
        hvalue.extends (hafter.trans hlater).toExtends
  | func definition =>
      obtain ⟨func, hrow⟩ := hkind
      apply (safe_program hprogram).bind
      rintro first _ hfirst rfl
      apply (safe_row (hgrows.func? hrow)).bind
      rintro second _ hsecond rfl
      exact safe_newClosure _
        (hopen.reaches.extends (hfirst.trans hsecond).toExtends) hprogram
        ⟨_, hgrows.func? hrow⟩

omit hexprs hgrows in
/-- An expression is safe if its parts are, which are all older. -/
theorem safe_evalExpr (hbuilt : program.Built) (hopen : base.Open site.env)
    {id : ExprId} (hid : program.HasExpr id)
    (hexprs : ∀ older : Program, older.Grows program →
      older.exprs.size = id.index → worker.ServesExprs custody site older) :
    Safe custody site base (worker.evalExpr id) Store.Holds := by
  obtain ⟨expr, hrow⟩ := hid
  obtain ⟨older, _, hgrows, hsize, hkind⟩ := hbuilt.expr_addedAt hrow
  apply (safe_program hprogram).bind
  rintro first _ hfirst rfl
  apply (safe_row hrow).bind
  rintro second _ hsecond rfl
  exact (safe_exprKind hprogram hgrows (hexprs older hgrows hsize) hcalls
    (hopen.grows (hfirst.trans hsecond)) _ hkind).located _

end Worker

end ChainScript
