import ChainScript.Proofs.IgnoringRuns

/-
Evaluation ignores a global that is not mentioned.

What a task asks for by name is written in its program, and a call is made with
values that tell nothing about the frame of the globals.  So every form of
expression and statement ignores the global, if the worker for its parts does.
-/

namespace ChainScript

open Step Run

variable {World : Type} {extra : Extra} {known : World → Value → Prop}
  {number : Nat}

/-- The values that a task is given are clear. -/
def Task.Clear (extra : Extra) : Task → Prop
  | .call _ args _ => args.All extra.Clear
  | _ => True

/-- The functions of a host ignore the global, whoever calls them. -/
def Natives.Ignores (extra : Extra) (known : World → Value → Prop)
    (natives : Natives World) : Prop :=
  ∀ number name args, args.All extra.Clear →
    Run.Ignores extra known number (askHost natives name args) extra.Clear

namespace Worker

/-- The worker ignores the global in every program. -/
def Ignores (extra : Extra) (known : World → Value → Prop)
    (worker : Worker World) : Prop :=
  ∀ number task, task.Clear extra →
    Run.Ignores extra known number (worker task) extra.Clear

section Parts

/-- What is read off a clear array is clear. -/
theorem ignores_memberOf {receiver : Value} (hreceiver : extra.Clear receiver)
    (key : Key) :
    Run.Ignores extra known number (memberOf receiver key) extra.Clear := by
  cases receiver with
  | array chain =>
      have hread : Run.Ignores extra known number
          (readHeap fun heap => heap.lookup? chain key)
          fun found => ∀ value, found = some value → extra.Clear value :=
        ignores_readHeap fun _ _ htwins =>
          ⟨htwins.lookup?_eq fun hframe => absurd hframe hreceiver,
            fun _ hvalue => htwins.lookup?_clear hvalue⟩
      refine hread.bind fun found hfound => ?_
      cases found with
      | some value => exact ignores_pure (hfound value rfl)
      | none => exact ignores_fault rfl
  | _ => exact ignores_fault rfl

/-- The entries of an array. -/
theorem ignores_flatten {chain : Chain}
    (hchain : extra.Clear (.array chain)) :
    Run.Ignores extra known number (readHeap fun heap => heap.flatten chain)
      fun content => content.All extra.Clear :=
  ignores_readHeap fun _ _ htwins =>
    ⟨htwins.flatten_eq hchain, htwins.flatten_clear chain⟩

theorem ignores_toCondition (construct : String) (value : Value) :
    Run.Ignores extra known number (ofExcept (toCondition construct value))
      fun _ => True :=
  ignores_ofExcept (fun _ hfault => bare_toCondition hfault) fun _ _ => trivial

theorem ignores_hook? {resource : Value} (hresource : extra.Clear resource)
    (label : String) :
    Run.Ignores extra known number (hook? resource label) fun _ => True := by
  cases resource with
  | array chain =>
      have hread : Run.Ignores extra known number
          (readHeap fun heap => heap.lookup? chain (.badge label))
          fun _ => True :=
        ignores_readHeap fun _ _ htwins =>
          ⟨htwins.lookup?_eq fun hframe => absurd hframe hresource, trivial⟩
      refine hread.bind fun found _ => ?_
      split <;> exact ignores_pure trivial
  | _ => exact ignores_pure trivial

theorem ignores_bound (name : String) {value : Value}
    (hvalue : extra.Clear value) :
    Run.Ignores extra known number (bound name value) extra.Clear :=
  (ignores_bindKey _ hvalue).bind fun _ _ => ignores_pure hvalue

theorem all_single (name : String) {value : Value} (hvalue : extra.Clear value) :
    (Container.empty.set (.badge name) value).All extra.Clear :=
  Container.all_empty.set _ hvalue

theorem ignores_roundBindings (key : Option String) (name : String)
    {entry : Key × Value} (hentry : extra.Clear entry.2) :
    Run.Ignores extra known number (ofExcept (roundBindings key name entry))
      fun content => content.All extra.Clear :=
  ignores_ofExcept (fun _ hfault => bare_roundBindings hfault)
    fun _ hround =>
      roundBindings_all (fun _ hplain => hplain.clear) hentry hround

/-- A caught fault is clear if what was raised is. -/
theorem ignores_caughtValue {cause : Cause}
    (hcause : ∀ value ∈ (Exit.ofCause cause).values, extra.Clear value) :
    Run.Ignores extra known number (caughtValue cause) extra.Clear := by
  unfold caughtValue
  split
  · next value hraised =>
      exact ignores_pure (hcause value (Cause.mem_values_of_caught hraised))
  · next content hdescribed =>
      exact ignores_newArray ((Cause.plain_of_caught hdescribed).mono
        fun _ hplain => hplain.clear)

theorem ignores_recoveryBindings (binding : Option String) {cause : Cause}
    (hcause : ∀ value ∈ (Exit.ofCause cause).values, extra.Clear value) :
    Run.Ignores extra known number (recoveryBindings binding cause)
      fun content => content.All extra.Clear := by
  cases binding with
  | none => exact ignores_pure Container.all_empty
  | some name =>
      exact (ignores_caughtValue hcause).bind fun _ hvalue =>
        ignores_pure (all_single name hvalue)

/-- What is left over for a rest parameter becomes an array of clear values. -/
theorem ignores_callFrame {content : Container Value}
    (hcontent : content.All extra.Clear) {supplied : List (String × Supplied)}
    (hsupplied : ∀ entry ∈ supplied, entry.2.All extra.Clear) :
    Run.Ignores extra known number (callFrame content supplied)
      fun content => content.All extra.Clear := by
  induction supplied generalizing content with
  | nil => exact ignores_pure hcontent
  | cons entry rest ih =>
      have hfirst := hsupplied entry List.mem_cons_self
      have hrest : ∀ entry ∈ rest, entry.2.All extra.Clear :=
        fun other hother => hsupplied other (List.mem_cons_of_mem _ hother)
      obtain ⟨name, value | entries⟩ := entry
      · exact ih (hcontent.set _ hfirst) hrest
      · exact (ignores_newArray hfirst).bind fun _ hvalue =>
          ih (hcontent.set _ hvalue) hrest

/-- The scope of a block with a frame of its own. -/
theorem ignores_ownScope {base outer : Chain}
    (hbase : extra.Clear (.array base)) (houter : extra.Admits number outer)
    {own : FrameId} (hown : own ≠ extra.frame) :
    Run.Ignores extra known number
      (withHeap fun heap =>
        let (chain, heap) := heap.stack base outer
        heap.push own chain) (extra.Admits number) := by
  refine ignores_withHeap fun left right htwins => ?_
  obtain ⟨hchain, hstacked⟩ := htwins.pushAll base.frames outer
  obtain ⟨hpushed, htwins⟩ := hstacked.push own (left.stack base outer).1
  have hsame : (right.stack base outer).1 = (left.stack base outer).1 := hchain
  refine ⟨?_, ?_, fun hframe => ?_⟩
  · dsimp only
    rw [hsame]
    exact hpushed
  · dsimp only
    rw [hsame]
    exact htwins
  · rcases List.mem_cons.mp hframe with heq | hrest
    · exact absurd heq.symm hown
    · have hstack : extra.frame ∈ Chain.frames (left.stack base outer).1 :=
        hrest
      rw [Heap.stack_frames] at hstack
      rcases List.mem_append.mp hstack with hin | hin
      · exact absurd hin hbase
      · exact houter hin

end Parts

variable {worker : Worker World} (hworker : worker.Ignores extra known)

include hworker

namespace Ignores

theorem expr (id : ExprId) :
    Run.Ignores extra known number (worker.expr id) extra.Clear :=
  hworker number (.expr id) trivial

theorem optional (value : Option ExprId) :
    Run.Ignores extra known number (worker.optional value) extra.Clear := by
  cases value with
  | none => exact ignores_pure trivial
  | some id => exact hworker.expr id

/-- What is expanded is a name of the program, and not that of the global. -/
theorem entry {content : Container Value} (hcontent : content.All extra.Clear)
    {entry : Entry}
    (hentry : number = extra.program → entry.kind.asksFor extra.name = false) :
    Run.Ignores extra known number (worker.entry content entry)
      fun content => content.All extra.Clear := by
  unfold Worker.entry
  cases hkind : entry.kind with
  | item id =>
      exact (hworker.expr id).bind fun _ hvalue =>
        ignores_pure (hcontent.append hvalue)
  | keyed key id =>
      exact (hworker.expr id).bind fun _ hvalue =>
        ignores_pure (hcontent.set key hvalue)
  | expand name =>
      rw [hkind] at hentry
      have hname : number = extra.program →
          Key.badge name ≠ .badge extra.name := fun hnumber heq =>
        of_decide_eq_false (hentry hnumber) (Key.badge.inj heq)
      refine ((ignores_lookup hname).located entry.span).bind
        fun value hvalue => ?_
      cases value with
      | array chain =>
          exact (ignores_flatten hvalue).bind fun _ hothers =>
            ignores_pure (hcontent.expand hothers)
      | _ => exact ignores_faultAt rfl

theorem entriesFrom {content : Container Value}
    (hcontent : content.All extra.Clear) {entries : List Entry}
    (hentries : ∀ entry ∈ entries, number = extra.program →
      entry.kind.asksFor extra.name = false) :
    Run.Ignores extra known number (worker.entriesFrom content entries)
      fun content => content.All extra.Clear := by
  induction entries generalizing content with
  | nil => exact ignores_pure hcontent
  | cons first rest ih =>
      have hfirst := hentries first List.mem_cons_self
      exact (hworker.entry hcontent hfirst).bind fun _ hcontent =>
        ih hcontent fun entry hentry =>
          hentries entry (List.mem_cons_of_mem _ hentry)

theorem entries (range : EntryRange) :
    Run.Ignores extra known number (worker.entries range)
      fun content => content.All extra.Clear := by
  refine ignores_program.bind fun program hsilent => ?_
  have hrows : Run.Ignores extra known number
      (Step.found (program.entries? range)) fun entries =>
        ∀ entry ∈ entries, number = extra.program →
          entry.kind.asksFor extra.name = false :=
    ignores_found fun _ hrows _ hentry hnumber =>
      Program.entry_asksFor (hsilent hnumber) hrows hentry
  exact hrows.bind fun _ hentries =>
    hworker.entriesFrom Container.all_empty hentries

theorem logical (op : BinaryOp) (left right : ExprId) :
    Run.Ignores extra known number (worker.logical op left right)
      extra.Clear := by
  refine (hworker.expr left).bind fun value _ => ?_
  refine (ignores_toCondition _ value).bind fun condition _ => ?_
  split
  · exact ignores_pure trivial
  · exact (hworker.expr right).bind fun other _ =>
      (ignores_toCondition _ other).bind fun _ _ => ignores_pure trivial

theorem binary (op : BinaryOp) (left right : ExprId) :
    Run.Ignores extra known number (worker.binary op left right)
      extra.Clear := by
  unfold Worker.binary
  split
  · exact hworker.logical _ left right
  · exact hworker.logical _ left right
  · refine (hworker.expr left).bind fun one hone => ?_
    refine (hworker.expr right).bind fun other hother => ?_
    have hread : Run.Ignores extra known number
        (readHeap fun heap => heap.binary op one other) PlainOutcome :=
      ignores_readHeap fun left _ htwins =>
        ⟨htwins.binary_eq op hone hother, left.plain_binary op one other⟩
    exact hread.bind fun outcome hplain => ignores_plainOutcome hplain

theorem compose (left right : ExprId) :
    Run.Ignores extra known number (worker.compose left right)
      extra.Clear := by
  refine (hworker.expr left).bind fun one hone => ?_
  refine (hworker.expr right).bind fun other hother => ?_
  exact (ignores_compose hone hother).bind fun _ hresult =>
    ignores_clearResult hresult

theorem callExpr (callee : ExprId) (args : EntryRange) (span : Span) :
    Run.Ignores extra known number (worker.callExpr callee args span)
      extra.Clear := by
  refine (hworker.expr callee).bind fun function _ => ?_
  refine (hworker.entries args).bind fun content hcontent => ?_
  cases function with
  | function id => exact hworker number (.call id content (some span)) hcontent
  | _ => exact ignores_fault rfl

/-- A name in the program is not that of the global, which is what makes lookups
agree. -/
theorem exprKind (span : Span) {kind : ExprKind}
    (hkind : number = extra.program → kind.asksFor extra.name = false) :
    Run.Ignores extra known number (worker.exprKind span kind)
      extra.Clear := by
  cases kind with
  | null | bool | int | float | str => exact ignores_pure trivial
  | ident name =>
      exact ignores_lookup fun hnumber heq =>
        of_decide_eq_false (hkind hnumber) (Key.badge.inj heq)
  | badge key =>
      exact ignores_lookup fun hnumber => of_decide_eq_false (hkind hnumber)
  | member receiver key =>
      exact (hworker.expr receiver).bind fun _ hvalue =>
        ignores_memberOf hvalue key
  | index receiver key =>
      refine (hworker.expr receiver).bind fun array harray => ?_
      refine (hworker.expr key).bind fun value _ => ?_
      have hkey : Run.Ignores extra known number (ofExcept value.key)
          fun _ => True :=
        ignores_ofExcept (fun _ hfault => bare_key hfault) fun _ _ => trivial
      exact hkey.bind fun key _ => ignores_memberOf harray key
  | array range | args range =>
      exact (hworker.entries range).bind fun _ hcontent =>
        ignores_newArray hcontent
  | binary op left right => exact hworker.binary op left right
  | unary op operand =>
      exact (hworker.expr operand).bind fun value _ =>
        ignores_plainResult (plain_unary op value)
  | compose left right => exact hworker.compose left right
  | call callee args => exact hworker.callExpr callee args span
  | assign target value =>
      exact (hworker.expr value).bind fun _ hvalue =>
        (ignores_bindKey target hvalue).bind fun _ _ => ignores_pure hvalue
  | func definition =>
      refine ignores_program.bind fun program _ => ?_
      exact (ignores_found fun _ _ => trivial).bind fun func _ =>
        ignores_newClosure func.name definition

theorem evalExpr (id : ExprId) :
    Run.Ignores extra known number (worker.evalExpr id) extra.Clear := by
  refine ignores_program.bind fun program hsilent => ?_
  have hrow : Run.Ignores extra known number (Step.found (program.expr? id))
      fun expr => number = extra.program →
        expr.kind.asksFor extra.name = false :=
    ignores_found fun _ hrow hnumber =>
      Program.expr_asksFor (hsilent hnumber) hrow
  exact hrow.bind fun expr hkind =>
    (hworker.exprKind expr.span hkind).located expr.span

theorem stmtsFrom {last : Value} (hlast : extra.Clear last)
    (ids : List StmtId) :
    Run.Ignores extra known number (worker.stmtsFrom last ids)
      extra.Clear := by
  induction ids generalizing last with
  | nil => exact ignores_pure hlast
  | cons id rest ih =>
      exact (hworker number (.stmt id) trivial).bind fun _ hvalue => ih hvalue

theorem stmts (range : StmtRange) :
    Run.Ignores extra known number (worker.stmts range) extra.Clear := by
  refine ignores_program.bind fun program _ => ?_
  have hnull : extra.Clear .null := trivial
  exact (ignores_found fun _ _ => trivial).bind fun ids _ =>
    hworker.stmtsFrom hnull ids

theorem blockWith {content : Container Value}
    (hcontent : content.All extra.Clear) (block : Block) :
    Run.Ignores extra known number (worker.blockWith content block)
      extra.Clear :=
  (hworker.stmts block.stmts).inFrame hcontent

theorem block (block : Block) :
    Run.Ignores extra known number (worker.block block) extra.Clear :=
  hworker.blockWith Container.all_empty block

theorem branch (condition : ExprId) (thenBlock : Block)
    (elseBlock : Option Block) :
    Run.Ignores extra known number
      (worker.branch condition thenBlock elseBlock) extra.Clear := by
  refine (hworker.expr condition).bind fun value _ => ?_
  cases hcondition : toCondition "`if` condition" value with
  | error cause =>
      refine ignores_program.bind fun program _ => ?_
      exact (ignores_found fun _ _ => trivial).bind fun expr _ =>
        ignores_faultAt (bare_toCondition hcondition)
  | ok holds =>
      cases holds with
      | true => exact hworker.block thenBlock
      | false =>
          cases elseBlock with
          | some block => exact hworker.block block
          | none => exact ignores_pure trivial

/-- Each round binds parts of a clear array. -/
theorem rounds (key : Option String) (name : String) (body : Block)
    {entries : List (Key × Value)}
    (hentries : ∀ entry ∈ entries, extra.Clear entry.2) :
    Run.Ignores extra known number (worker.rounds key name body entries)
      extra.Clear := by
  induction entries with
  | nil => exact ignores_pure trivial
  | cons entry rest ih =>
      have hrest := ih fun other hother =>
        hentries other (List.mem_cons_of_mem _ hother)
      refine (ignores_roundBindings key name
        (hentries entry List.mem_cons_self)).bind fun content hcontent => ?_
      refine (hworker.blockWith hcontent body).attempt.bind
        fun result hresult => ?_
      cases result with
      | ok value => exact hrest
      | error exit =>
          dsimp only
          split
          · exact ignores_pure trivial
          · exact hrest
          · exact ignores_fail hresult

theorem loop (key : Option String) (name : String) (iterated : ExprId)
    (body : Block) :
    Run.Ignores extra known number (worker.loop key name iterated body)
      extra.Clear := by
  refine (hworker.expr iterated).bind fun value hvalue => ?_
  cases value with
  | array chain =>
      exact (ignores_flatten hvalue).bind fun _ hcontent =>
        hworker.rounds key name body hcontent
  | _ =>
      refine ignores_program.bind fun program _ => ?_
      exact (ignores_found fun _ _ => trivial).bind fun expr _ =>
        ignores_faultAt rfl

/-- The handler binds what the block was left with. -/
theorem attempt (body : Block) (recovery : CatchClause) :
    Run.Ignores extra known number (worker.attempt body recovery)
      extra.Clear := by
  refine (hworker.block body).attempt.bind fun result hresult => ?_
  cases result with
  | ok value => exact ignores_pure hresult
  | error exit =>
      refine ignores_program.bind fun program _ => ?_
      refine (ignores_found fun _ _ => trivial).bind fun kinds _ => ?_
      split
      · exact ignores_fail hresult
      · next cause hreason =>
          have hcause : ∀ value ∈ (Exit.ofCause cause).values,
              extra.Clear value := by
            intro value hvalue
            apply hresult value
            unfold Exit.values at hvalue ⊢
            rwa [hreason]
          split
          · exact (ignores_recoveryBindings recovery.binding hcause).bind
              fun _ hcontent => hworker.blockWith hcontent recovery.body
          · exact ignores_fail hresult

theorem entering (enter : Option FunctionId) (span : Span) {resource : Value}
    (hresource : extra.Clear resource) :
    Run.Ignores extra known number (worker.entering enter span resource)
      extra.Clear := by
  cases enter with
  | none => exact ignores_pure hresource
  | some id => exact hworker number (.call id .empty (some span)) Container.all_empty

/-- The release is called however the body ends. -/
theorem releasing (release : Option FunctionId) (span : Span)
    {body : Run World Value}
    (hbody : Run.Ignores extra known number body extra.Clear) :
    Run.Ignores extra known number (worker.releasing release span body)
      extra.Clear := by
  cases release with
  | none => exact hbody
  | some id =>
      refine hbody.attempt.bind fun result hresult => ?_
      refine (hworker number (.call id .empty (some span))
        Container.all_empty).attempt.bind fun released hreleased => ?_
      cases result with
      | error exit => exact ignores_fail hresult
      | ok value =>
          cases released with
          | ok _ => exact ignores_pure hresult
          | error exit => exact ignores_fail hreleased

theorem resource (acquired : ExprId) (binding : Option String) (body : Block)
    (span : Span) :
    Run.Ignores extra known number
      (worker.resource acquired binding body span) extra.Clear := by
  refine (hworker.expr acquired).bind fun resource hresource => ?_
  refine (ignores_hook? hresource "enter").bind fun enter _ => ?_
  refine (ignores_hook? hresource "release").bind fun release _ => ?_
  refine (hworker.entering enter span hresource).bind fun bound hbound => ?_
  refine hworker.releasing release span (hworker.blockWith ?_ body)
  cases binding with
  | none => exact Container.all_empty
  | some name => exact all_single name hbound

/-- The new frame of an inheriting block is not the frame of the globals. -/
theorem ownFrame {base : Chain} (hbase : extra.Clear (.array base))
    (body : Block) :
    Run.Ignores extra known number (worker.ownFrame base body)
      fun own => own ≠ extra.frame := by
  have hadd : Run.Ignores extra known number
      (withHeap fun heap => heap.addFrame .empty)
      fun own => own ≠ extra.frame :=
    ignores_withHeap fun left _ htwins =>
      have ⟨hid, hadded⟩ := htwins.addFrame Container.all_empty
      ⟨hid, hadded, (Nat.ne_of_lt htwins.frame_lt).symm⟩
  have henv : Run.Ignores extra known number (Step.read Machine.env)
      (extra.Admits number) :=
    ignores_read fun _ _ hat => ⟨rfl, hat.admits⟩
  refine hadd.bind fun own hown => henv.bind fun outer houter => ?_
  refine (ignores_ownScope hbase houter hown).bind fun scope hadmits => ?_
  exact ((hworker.stmts body.stmts).inChain hadmits).bind fun _ _ =>
    ignores_pure hown

theorem inherit {name parent : String} (body : Block)
    (hparent : number = extra.program → parent ≠ extra.name) :
    Run.Ignores extra known number (worker.inherit name parent body)
      extra.Clear := by
  have hkey : number = extra.program →
      Key.badge parent ≠ .badge extra.name := fun hnumber heq =>
    hparent hnumber (Key.badge.inj heq)
  refine (ignores_lookup hkey).bind fun value hvalue => ?_
  cases value with
  | array base =>
      refine (hworker.ownFrame hvalue body).bind fun own hown => ?_
      have hpush : Run.Ignores extra known number
          (withHeap fun heap => heap.push own base)
          fun chain => extra.Clear (.array chain) := by
        refine ignores_withHeap fun left right htwins => ?_
        obtain ⟨hchain, hpushed⟩ := htwins.push own base
        refine ⟨hchain, hpushed, fun hframe => ?_⟩
        rcases List.mem_cons.mp hframe with heq | hrest
        · exact hown heq.symm
        · exact hvalue hrest
      exact hpush.bind fun _ hchain => ignores_bound name hchain
  | _ => exact ignores_fault rfl

theorem operand (kind : StmtKind) :
    Run.Ignores extra known number (worker.operand kind) extra.Clear := by
  cases kind with
  | assignBlock name body => exact hworker.block body
  | «return» value | «raise» value => exact hworker.optional value
  | _ => exact ignores_pure trivial

/-- A statement binds names of its program, none of which is that of the global.
-/
theorem stmtKind (span : Span) {operand : Value}
    (hoperand : extra.Clear operand) {kind : StmtKind}
    (hkind : number = extra.program → kind.asksFor extra.name = false) :
    Run.Ignores extra known number (worker.stmtKind span operand kind)
      extra.Clear := by
  cases kind with
  | expr value => exact hworker.expr value
  | branch condition thenBlock elseBlock =>
      exact hworker.branch condition thenBlock elseBlock
  | scope body => exact hworker.block body
  | loop key value iterated body => exact hworker.loop key value iterated body
  | attempt body recovery => exact hworker.attempt body recovery
  | resource acquired binding body =>
      exact hworker.resource acquired binding body span
  | assignBlock name body => exact ignores_bound name hoperand
  | funcBlock name definition =>
      exact (ignores_newClosure name definition).bind fun _ hvalue =>
        ignores_bound name hvalue
  | inheritBlock name parent body =>
      exact hworker.inherit body fun hnumber =>
        of_decide_eq_false (hkind hnumber)
  | «return» value =>
      refine ignores_fail fun value hvalue => ?_
      rw [List.mem_singleton.mp hvalue]
      exact hoperand
  | «break» | «continue» => exact ignores_fail nofun
  | «raise» value =>
      refine (ignores_textOf hoperand).bind fun text _ => ignores_fail ?_
      intro value hvalue
      rw [List.mem_singleton.mp hvalue]
      exact hoperand

theorem evalStmt (id : StmtId) :
    Run.Ignores extra known number (worker.evalStmt id) extra.Clear := by
  refine ignores_program.bind fun program hsilent => ?_
  have hrow : Run.Ignores extra known number (Step.found (program.stmt? id))
      fun stmt => number = extra.program →
        stmt.kind.asksFor extra.name = false :=
    ignores_found fun _ hrow hnumber =>
      Program.stmt_asksFor (hsilent hnumber) hrow
  refine hrow.bind fun stmt hkind => ?_
  exact (hworker.operand stmt.kind).bind fun _ hoperand =>
    (hworker.stmtKind stmt.span hoperand hkind).located stmt.span

theorem defaults (unbound : List (String × ExprId)) :
    Run.Ignores extra known number (worker.defaults unbound)
      fun _ => True := by
  induction unbound with
  | nil => exact ignores_pure trivial
  | cons entry rest ih =>
      exact (hworker.expr entry.2).bind fun _ hvalue =>
        (ignores_bindKey _ hvalue).bind fun _ _ => ih

/-- The body of a function runs in the scope that it captured, which has the
frame of the globals only if it may. -/
theorem runBody {other : Nat} (func : FuncDef) {captured : Chain}
    (hcaptured : extra.Admits other captured) {content : Container Value}
    (hcontent : content.All extra.Clear) (unbound : List (String × ExprId)) :
    Run.Ignores extra known number
      (worker.runBody other func captured content unbound) extra.Clear := by
  have hpush : Run.Ignores extra known number
      (withHeap fun heap => heap.pushNew content captured)
      (extra.Admits other) := by
    refine ignores_withHeap fun left right htwins => ?_
    obtain ⟨hchain, hpushed⟩ := htwins.pushNew hcontent captured
    refine ⟨hchain, hpushed, fun hframe => ?_⟩
    rcases List.mem_cons.mp hframe with heq | hrest
    · exact absurd heq (Nat.ne_of_lt htwins.frame_lt)
    · exact hcaptured hrest
  refine hpush.bind fun scope hscope => Run.Ignores.inScope ?_ hscope
  exact (hworker.defaults unbound).bind fun _ _ =>
    (hworker.stmts func.body.stmts).catchReturn

/-- A function of any program, which has a scope of its own. -/
theorem callScript (name : String) {other : Nat} (definition : FuncId)
    {captured : Chain} (hcaptured : extra.Admits other captured)
    {args : Container Value} (hargs : args.All extra.Clear) :
    Run.Ignores extra known number
      (worker.callScript name other definition captured args)
      extra.Clear := by
  have hread : Run.Ignores extra known number
      (Step.read fun machine => machine.programs[other]?) fun _ => True :=
    ignores_read fun _ _ _ => ⟨rfl, trivial⟩
  refine hread.bind fun row _ => ?_
  refine (ignores_found fun _ _ => trivial).bind fun program _ => ?_
  refine (ignores_found fun _ _ => trivial).bind fun func _ => ?_
  refine (ignores_found fun _ _ => trivial).bind fun params _ => ?_
  have hbind : Run.Ignores extra known number
      (ofExcept (bindArguments (functionLabel name) params args))
      fun bindings => bindings.From extra.Clear params :=
    ignores_ofExcept (fun _ hfault => bare_bindArguments hfault)
      fun _ hbindings => bindArguments_from hargs hbindings
  refine hbind.bind fun bindings hfrom => ?_
  exact (ignores_callFrame Container.all_empty hfrom.supplied).bind
    fun _ hcontent => hworker.runBody func hcaptured hcontent bindings.defaults

theorem evalCall {natives : Natives World}
    (hnatives : natives.Ignores extra known) (id : FunctionId)
    {args : Container Value} (hargs : args.All extra.Clear)
    (site : Option Span) :
    Run.Ignores extra known number (worker.evalCall natives id args site)
      extra.Clear := by
  have hread : Run.Ignores extra known number
      (readHeap fun heap => heap.function? id) fun row =>
        ∀ function, row = some function →
          function.bound.All extra.Clear ∧ extra.AdmitsBody function.body :=
    ignores_readHeap fun left _ htwins =>
      ⟨htwins.function?_eq id, fun function hfunction =>
        have hmem := Array.mem_of_getElem? hfunction
        ⟨htwins.bound function hmem, htwins.bodies function hmem⟩⟩
  refine hread.bind fun row hrow => ?_
  refine (ignores_found hrow).bind fun function hfunction => ?_
  have hall : (function.bound.expand args.entries).All extra.Clear :=
    hfunction.1.expand hargs
  refine Run.Ignores.inCall ?_ _
  split
  · exact hnatives number function.name _ hall
  · next other definition captured hbody =>
      have hcaptured := hfunction.2
      rw [hbody] at hcaptured
      exact hworker.callScript function.name definition hcaptured hall

end Ignores

end Worker

/-- Evaluation ignores the global, if the host does. -/
theorem evaluate_ignores {natives : Natives World}
    (hnatives : natives.Ignores extra known) (depth : Nat) :
    (evaluate natives depth).Ignores extra known := by
  induction depth with
  | zero => exact fun _ _ _ => ignores_ofOutcome _ trivial
  | succ depth ih =>
      intro number task htask
      cases task with
      | expr id => exact ih.evalExpr id
      | stmt id => exact ih.evalStmt id
      | call id args site => exact ih.evalCall hnatives id htask site

/-- A script ignores the global. -/
theorem runScript_ignores {natives : Natives World}
    (hnatives : natives.Ignores extra known) (script : Script) :
    Run.Ignores extra known number (runScript natives script)
      extra.Clear := by
  have hdepth : Run.Ignores extra known number
      (Step.read Machine.depthBound) fun _ => True :=
    ignores_read fun _ _ _ => ⟨rfl, trivial⟩
  exact hdepth.bind fun depth _ =>
    ((evaluate_ignores hnatives depth).stmts script.body).catchReturn

end ChainScript
