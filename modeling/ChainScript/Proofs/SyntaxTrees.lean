import ChainScript.Decimal.Digits
import ChainScript.ErrorCode
import ChainScript.Proofs.BuiltPrograms

/-
Syntax trees, and which node of a program reads as which tree.

A tree is what a program says, without places and row numbers.  It can always
be written down: positions in keys are small enough for a literal, `break` and
`continue` have a loop around them, and only the last parameter collects what is
left over.
-/

namespace ChainScript

/-- A position that a literal can spell.  All labels can be spelled. -/
def Key.Spelled : Key → Prop
  | .badge _ => True
  | .index position => position.toNat ≤ maxInteger

/-- A key that can stand in a script. -/
structure WrittenKey where
  key : Key
  spelled : key.Spelled
deriving DecidableEq

/-- What stands between `catch` and its block. -/
inductive CatchHead where
  /-- All faults are recovered from, and none is bound. -/
  | all
  | bind (name : String) (hname : FaultKind.isName name = false)
  | only (first : String) (others : List String) (name : String)
deriving DecidableEq

namespace CatchHead

/-- The variable that a fault is bound to. -/
def binding : CatchHead → Option String
  | .all => none
  | .bind name _ => some name
  | .only _ _ name => some name

/-- The listed kinds of faults. -/
def kinds : CatchHead → List String
  | .all => []
  | .bind _ _ => []
  | .only first others _ => first :: others

end CatchHead

/-- The categories of trees.  Statements are told apart by whether there is a
loop around them in the same function. -/
inductive Category where
  | expr
  | optional
  | entries
  | params
  | stmt (inLoop : Bool)
  | stmts (inLoop : Bool)
  /-- The part of a conditional after `else`, which may be missing. -/
  | other (inLoop : Bool)
deriving DecidableEq

/-- Syntax trees. -/
inductive Tree : Category → Type where
  | null : Tree .expr
  | bool (value : Bool) : Tree .expr
  | int (value : Int64) : Tree .expr
  | float (value : Float) : Tree .expr
  | str (text : String) : Tree .expr
  | ident (name : String) : Tree .expr
  | badge (key : WrittenKey) : Tree .expr
  | member (receiver : Tree .expr) (key : WrittenKey) : Tree .expr
  | index (receiver key : Tree .expr) : Tree .expr
  | array (entries : Tree .entries) : Tree .expr
  | args (entries : Tree .entries) : Tree .expr
  | binary (op : BinaryOp) (left right : Tree .expr) : Tree .expr
  | unary (op : UnaryOp) (operand : Tree .expr) : Tree .expr
  | compose (left right : Tree .expr) : Tree .expr
  | call (callee : Tree .expr) (arguments : Tree .entries) : Tree .expr
  | assign (target : WrittenKey) (value : Tree .expr) : Tree .expr
  | func (params : Tree .params) (body : Tree (.stmts false)) : Tree .expr
  | absent : Tree .optional
  | present (value : Tree .expr) : Tree .optional
  | noEntries : Tree .entries
  | item (value : Tree .expr) (others : Tree .entries) : Tree .entries
  | keyed (key : WrittenKey) (value : Tree .expr) (others : Tree .entries) :
      Tree .entries
  | expand (name : String) (others : Tree .entries) : Tree .entries
  | noParams : Tree .params
  | rest (name : String) : Tree .params
  | param (name : String) (default : Tree .optional) (others : Tree .params) :
      Tree .params
  | expr {inLoop : Bool} (value : Tree .expr) : Tree (.stmt inLoop)
  | branch {inLoop : Bool} (condition : Tree .expr)
      (body : Tree (.stmts inLoop)) (other : Tree (.other inLoop)) :
      Tree (.stmt inLoop)
  | scope {inLoop : Bool} (body : Tree (.stmts inLoop)) : Tree (.stmt inLoop)
  | loop {inLoop : Bool} (key : Option String) (value : String)
      (iterated : Tree .expr) (body : Tree (.stmts true)) : Tree (.stmt inLoop)
  | attempt {inLoop : Bool} (body : Tree (.stmts inLoop)) (head : CatchHead)
      (recovery : Tree (.stmts inLoop)) : Tree (.stmt inLoop)
  | resource {inLoop : Bool} (acquired : Tree .expr) (binding : Option String)
      (body : Tree (.stmts inLoop)) : Tree (.stmt inLoop)
  | assignBlock {inLoop : Bool} (name : String) (body : Tree (.stmts inLoop)) :
      Tree (.stmt inLoop)
  | funcBlock {inLoop : Bool} (name : String) (params : Tree .params)
      (body : Tree (.stmts false)) : Tree (.stmt inLoop)
  | inheritBlock {inLoop : Bool} (name parent : String)
      (body : Tree (.stmts inLoop)) : Tree (.stmt inLoop)
  | return {inLoop : Bool} (value : Tree .optional) : Tree (.stmt inLoop)
  | raise {inLoop : Bool} (value : Tree .optional) : Tree (.stmt inLoop)
  | break : Tree (.stmt true)
  | continue : Tree (.stmt true)
  | done {inLoop : Bool} : Tree (.stmts inLoop)
  | next {inLoop : Bool} (first : Tree (.stmt inLoop))
      (others : Tree (.stmts inLoop)) : Tree (.stmts inLoop)
  | noOther {inLoop : Bool} : Tree (.other inLoop)
  | otherwise {inLoop : Bool} (body : Tree (.stmts inLoop)) :
      Tree (.other inLoop)

namespace Program

variable (program : Program)

/-- An expression is there, and its form has a property. -/
def ExprIs (id : ExprId) (form : ExprKind → Prop) : Prop :=
  ∃ expr, program.expr? id = some expr ∧ form expr.kind

def StmtIs (id : StmtId) (form : StmtKind → Prop) : Prop :=
  ∃ stmt, program.stmt? id = some stmt ∧ form stmt.kind

def StmtsAre (range : StmtRange) (forms : List StmtId → Prop) : Prop :=
  ∃ ids, program.stmtList? range = some ids ∧ forms ids

def EntriesAre (range : EntryRange) (forms : List Entry → Prop) : Prop :=
  ∃ entries, program.entries? range = some entries ∧ forms entries

def ParamsAre (range : ParamRange) (forms : List Param → Prop) : Prop :=
  ∃ params, program.params? range = some params ∧ forms params

/-- A definition is there, with a given name, parameters and body. -/
def FuncIs (id : FuncId) (name : String) (params : List Param → Prop)
    (body : List StmtId → Prop) : Prop :=
  ∃ func, program.func? id = some func ∧ func.name = name ∧
    program.ParamsAre func.params params ∧
    program.StmtsAre func.body.stmts body

end Program

/-- What a program has in the place of a tree: the form of an expression or a
statement, or a list of rows. -/
@[reducible] def Category.Node : Category → Type
  | .expr => ExprKind
  | .optional => Option ExprId
  | .entries => List Entry
  | .params => List Param
  | .stmt _ => StmtKind
  | .stmts _ => List StmtId
  | .other _ => Option Block

/-- The node reads as the tree. -/
def Tree.At (program : Program) :
    {category : Category} → Tree category → category.Node → Prop
  | _, .null, kind => kind = .null
  | _, .bool value, kind => kind = .bool value
  | _, .int value, kind => kind = .int value
  | _, .float value, kind => kind = .float value
  | _, .str text, kind => kind = .str text
  | _, .ident name, kind => kind = .ident name
  | _, .badge key, kind => kind = .badge key.key
  | _, .member receiver key, kind =>
      ∃ id, kind = .member id key.key ∧ program.ExprIs id (receiver.At program)
  | _, .index receiver key, kind =>
      ∃ left right, kind = .index left right ∧
        program.ExprIs left (receiver.At program) ∧
        program.ExprIs right (key.At program)
  | _, .array entries, kind =>
      ∃ range, kind = .array range ∧
        program.EntriesAre range (entries.At program)
  | _, .args entries, kind =>
      ∃ range, kind = .args range ∧
        program.EntriesAre range (entries.At program)
  | _, .binary op left right, kind =>
      ∃ one other, kind = .binary op one other ∧
        program.ExprIs one (left.At program) ∧
        program.ExprIs other (right.At program)
  | _, .unary op operand, kind =>
      ∃ id, kind = .unary op id ∧ program.ExprIs id (operand.At program)
  | _, .compose left right, kind =>
      ∃ one other, kind = .compose one other ∧
        program.ExprIs one (left.At program) ∧
        program.ExprIs other (right.At program)
  | _, .call callee arguments, kind =>
      ∃ id range, kind = .call id range ∧
        program.ExprIs id (callee.At program) ∧
        program.EntriesAre range (arguments.At program)
  | _, .assign target value, kind =>
      ∃ id, kind = .assign target.key id ∧
        program.ExprIs id (value.At program)
  | _, .func params body, kind =>
      ∃ id, kind = .func id ∧
        program.FuncIs id "" (params.At program) (body.At program)
  | _, .absent, value => value = none
  | _, .present tree, value =>
      ∃ id, value = some id ∧ program.ExprIs id (tree.At program)
  | _, .noEntries, entries => entries = []
  | _, .item value others, entries =>
      ∃ id span rest, entries = ⟨.item id, span⟩ :: rest ∧
        program.ExprIs id (value.At program) ∧ others.At program rest
  | _, .keyed key value others, entries =>
      ∃ id span rest, entries = ⟨.keyed key.key id, span⟩ :: rest ∧
        program.ExprIs id (value.At program) ∧ others.At program rest
  | _, .expand name others, entries =>
      ∃ span rest, entries = ⟨.expand name, span⟩ :: rest ∧
        others.At program rest
  | _, .noParams, params => params = []
  | _, .rest name, params =>
      ∃ span, params = [⟨name, none, true, span⟩]
  | _, .param name default others, params =>
      ∃ value span rest, params = ⟨name, value, false, span⟩ :: rest ∧
        default.At program value ∧ others.At program rest
  | _, .expr value, kind =>
      ∃ id, kind = .expr id ∧ program.ExprIs id (value.At program)
  | _, .branch condition body other, kind =>
      ∃ id block elseBlock, kind = .branch id block elseBlock ∧
        program.ExprIs id (condition.At program) ∧
        program.StmtsAre block.stmts (body.At program) ∧
        other.At program elseBlock
  | _, .scope body, kind =>
      ∃ block, kind = .scope block ∧
        program.StmtsAre block.stmts (body.At program)
  | _, .loop key value iterated body, kind =>
      ∃ id block, kind = .loop key value id block ∧
        program.ExprIs id (iterated.At program) ∧
        program.StmtsAre block.stmts (body.At program)
  | _, .attempt body head recovery, kind =>
      ∃ block clause, kind = .attempt block clause ∧
        program.StmtsAre block.stmts (body.At program) ∧
        clause.binding = head.binding ∧
        program.names? clause.kinds = some head.kinds ∧
        program.StmtsAre clause.body.stmts (recovery.At program)
  | _, .resource acquired binding body, kind =>
      ∃ id block, kind = .resource id binding block ∧
        program.ExprIs id (acquired.At program) ∧
        program.StmtsAre block.stmts (body.At program)
  | _, .assignBlock name body, kind =>
      ∃ block, kind = .assignBlock name block ∧
        program.StmtsAre block.stmts (body.At program)
  | _, .funcBlock name params body, kind =>
      ∃ id, kind = .funcBlock name id ∧
        program.FuncIs id name (params.At program) (body.At program)
  | _, .inheritBlock name parent body, kind =>
      ∃ block, kind = .inheritBlock name parent block ∧
        program.StmtsAre block.stmts (body.At program)
  | _, .return tree, kind =>
      ∃ value, kind = .return value ∧ tree.At program value
  | _, .raise tree, kind =>
      ∃ value, kind = .raise value ∧ tree.At program value
  | _, .break, kind => kind = .break
  | _, .continue, kind => kind = .continue
  | _, .done, ids => ids = []
  | _, .next first others, ids =>
      ∃ id rest, ids = id :: rest ∧ program.StmtIs id (first.At program) ∧
        others.At program rest
  | _, .noOther, block => block = none
  | _, .otherwise body, elseBlock =>
      ∃ block, elseBlock = some block ∧
        program.StmtsAre block.stmts (body.At program)

section Growing

variable {before after : Program} (hgrows : before.Grows after)

include hgrows

theorem Program.ExprIs.grows {id : ExprId} {form other : ExprKind → Prop}
    (hexpr : before.ExprIs id form) (himp : ∀ kind, form kind → other kind) :
    after.ExprIs id other := by
  obtain ⟨expr, hrow, hform⟩ := hexpr
  exact ⟨expr, hgrows.expr? hrow, himp _ hform⟩

theorem Program.StmtIs.grows {id : StmtId} {form other : StmtKind → Prop}
    (hstmt : before.StmtIs id form) (himp : ∀ kind, form kind → other kind) :
    after.StmtIs id other := by
  obtain ⟨stmt, hrow, hform⟩ := hstmt
  exact ⟨stmt, hgrows.stmt? hrow, himp _ hform⟩

theorem Program.StmtsAre.grows {range : StmtRange}
    {forms others : List StmtId → Prop} (hstmts : before.StmtsAre range forms)
    (himp : ∀ ids, forms ids → others ids) : after.StmtsAre range others := by
  obtain ⟨ids, hrows, hforms⟩ := hstmts
  exact ⟨ids, hgrows.stmtList? hrows, himp _ hforms⟩

theorem Program.EntriesAre.grows {range : EntryRange}
    {forms others : List Entry → Prop} (hentries : before.EntriesAre range forms)
    (himp : ∀ entries, forms entries → others entries) :
    after.EntriesAre range others := by
  obtain ⟨entries, hrows, hforms⟩ := hentries
  exact ⟨entries, hgrows.entries? hrows, himp _ hforms⟩

theorem Program.ParamsAre.grows {range : ParamRange}
    {forms others : List Param → Prop} (hparams : before.ParamsAre range forms)
    (himp : ∀ params, forms params → others params) :
    after.ParamsAre range others := by
  obtain ⟨params, hrows, hforms⟩ := hparams
  exact ⟨params, hgrows.params? hrows, himp _ hforms⟩

theorem Program.FuncIs.grows {id : FuncId} {name : String}
    {params others : List Param → Prop} {body block : List StmtId → Prop}
    (hfunc : before.FuncIs id name params body)
    (hparams : ∀ rows, params rows → others rows)
    (hbody : ∀ ids, body ids → block ids) :
    after.FuncIs id name others block := by
  obtain ⟨func, hrow, hname, hparam, hblock⟩ := hfunc
  exact ⟨func, hgrows.func? hrow, hname, hparam.grows hgrows hparams,
    hblock.grows hgrows hbody⟩

/-- A node goes on reading as the same tree when rows are added. -/
theorem Tree.At.grows {category : Category} {tree : Tree category}
    {node : category.Node} (hat : tree.At before node) :
    tree.At after node := by
  induction tree with
  | null | bool | int | float | str | ident | badge => exact hat
  | member receiver key ih =>
      obtain ⟨id, hkind, hreceiver⟩ := hat
      exact ⟨id, hkind, hreceiver.grows hgrows fun _ => ih⟩
  | index receiver key ihr ihk =>
      obtain ⟨left, right, hkind, hreceiver, hkey⟩ := hat
      exact ⟨left, right, hkind, hreceiver.grows hgrows fun _ => ihr,
        hkey.grows hgrows fun _ => ihk⟩
  | array entries ih | args entries ih =>
      obtain ⟨range, hkind, hentries⟩ := hat
      exact ⟨range, hkind, hentries.grows hgrows fun _ => ih⟩
  | binary op left right ihl ihr | compose left right ihl ihr =>
      obtain ⟨one, other, hkind, hleft, hright⟩ := hat
      exact ⟨one, other, hkind, hleft.grows hgrows fun _ => ihl,
        hright.grows hgrows fun _ => ihr⟩
  | unary op operand ih =>
      obtain ⟨id, hkind, hoperand⟩ := hat
      exact ⟨id, hkind, hoperand.grows hgrows fun _ => ih⟩
  | call callee arguments ihc iha =>
      obtain ⟨id, range, hkind, hcallee, hargs⟩ := hat
      exact ⟨id, range, hkind, hcallee.grows hgrows fun _ => ihc,
        hargs.grows hgrows fun _ => iha⟩
  | assign target value ih =>
      obtain ⟨id, hkind, hvalue⟩ := hat
      exact ⟨id, hkind, hvalue.grows hgrows fun _ => ih⟩
  | func params body ihp ihb =>
      obtain ⟨id, hkind, hfunc⟩ := hat
      exact ⟨id, hkind, hfunc.grows hgrows (fun _ => ihp) fun _ => ihb⟩
  | absent => exact hat
  | present value ih =>
      obtain ⟨id, hsome, hvalue⟩ := hat
      exact ⟨id, hsome, hvalue.grows hgrows fun _ => ih⟩
  | noEntries | noParams | rest => exact hat
  | item value others ihv iho | keyed key value others ihv iho =>
      obtain ⟨id, span, rest, hrows, hvalue, hrest⟩ := hat
      exact ⟨id, span, rest, hrows, hvalue.grows hgrows fun _ => ihv,
        iho hrest⟩
  | expand name others ih =>
      obtain ⟨span, rest, hrows, hrest⟩ := hat
      exact ⟨span, rest, hrows, ih hrest⟩
  | param name default others ihd iho =>
      obtain ⟨value, span, rest, hrows, hdefault, hrest⟩ := hat
      exact ⟨value, span, rest, hrows, ihd hdefault, iho hrest⟩
  | expr value ih =>
      obtain ⟨id, hkind, hvalue⟩ := hat
      exact ⟨id, hkind, hvalue.grows hgrows fun _ => ih⟩
  | branch condition body other ihc ihb iho =>
      obtain ⟨id, block, elseBlock, hkind, hcondition, hbody, hother⟩ := hat
      exact ⟨id, block, elseBlock, hkind,
        hcondition.grows hgrows fun _ => ihc, hbody.grows hgrows fun _ => ihb,
        iho hother⟩
  | scope body ih | assignBlock name body ih | inheritBlock name parent body ih =>
      obtain ⟨block, hkind, hbody⟩ := hat
      exact ⟨block, hkind, hbody.grows hgrows fun _ => ih⟩
  | loop key value iterated body ihi ihb =>
      obtain ⟨id, block, hkind, hiterated, hbody⟩ := hat
      exact ⟨id, block, hkind, hiterated.grows hgrows fun _ => ihi,
        hbody.grows hgrows fun _ => ihb⟩
  | attempt body head recovery ihb ihr =>
      obtain ⟨block, clause, hkind, hbody, hbinding, hkinds, hrecovery⟩ := hat
      exact ⟨block, clause, hkind, hbody.grows hgrows fun _ => ihb, hbinding,
        hgrows.names? hkinds, hrecovery.grows hgrows fun _ => ihr⟩
  | resource acquired binding body iha ihb =>
      obtain ⟨id, block, hkind, hacquired, hbody⟩ := hat
      exact ⟨id, block, hkind, hacquired.grows hgrows fun _ => iha,
        hbody.grows hgrows fun _ => ihb⟩
  | funcBlock name params body ihp ihb =>
      obtain ⟨id, hkind, hfunc⟩ := hat
      exact ⟨id, hkind, hfunc.grows hgrows (fun _ => ihp) fun _ => ihb⟩
  | «return» value ih | raise value ih =>
      obtain ⟨id, hkind, hvalue⟩ := hat
      exact ⟨id, hkind, ih hvalue⟩
  | «break» | «continue» | done | noOther => exact hat
  | next first others ihf iho =>
      obtain ⟨id, rest, hrows, hfirst, hrest⟩ := hat
      exact ⟨id, rest, hrows, hfirst.grows hgrows fun _ => ihf, iho hrest⟩
  | otherwise body ih =>
      obtain ⟨block, hsome, hbody⟩ := hat
      exact ⟨block, hsome, hbody.grows hgrows fun _ => ih⟩

end Growing

section Reading

variable {program : Program}

theorem Program.ExprIs.hasExpr {id : ExprId} {form : ExprKind → Prop}
    (hexpr : program.ExprIs id form) : program.HasExpr id := by
  obtain ⟨expr, hrow, _⟩ := hexpr
  exact ⟨expr, hrow⟩

theorem Program.StmtIs.hasStmt {id : StmtId} {form : StmtKind → Prop}
    (hstmt : program.StmtIs id form) : program.HasStmt id := by
  obtain ⟨stmt, hrow, _⟩ := hstmt
  exact ⟨stmt, hrow⟩

theorem Program.FuncIs.hasFunc {id : FuncId} {name : String}
    {params : List Param → Prop} {body : List StmtId → Prop}
    (hfunc : program.FuncIs id name params body) : program.HasFunc id := by
  obtain ⟨func, hrow, _⟩ := hfunc
  exact ⟨func, hrow⟩

theorem Program.EntriesAre.hasEntries {range : EntryRange}
    {forms : List Entry → Prop} (hentries : program.EntriesAre range forms)
    (hrefers : ∀ entries, forms entries →
      ∀ entry ∈ entries, entry.kind.RefersInto program) :
    program.HasEntries range := by
  obtain ⟨entries, hrows, hforms⟩ := hentries
  exact ⟨entries, hrows, hrefers entries hforms⟩

theorem Program.StmtsAre.hasStmts {range : StmtRange}
    {forms : List StmtId → Prop} (hstmts : program.StmtsAre range forms)
    (hrefers : ∀ ids, forms ids → ∀ id ∈ ids, program.HasStmt id) :
    program.HasStmts range := by
  obtain ⟨ids, hrows, hforms⟩ := hstmts
  exact ⟨ids, hrows, hrefers ids hforms⟩

end Reading

/-- All that a node refers to is there. -/
@[reducible] def Category.RefersInto (program : Program) :
    (category : Category) → category.Node → Prop
  | .expr, kind => kind.RefersInto program
  | .optional, value => ∀ id, value = some id → program.HasExpr id
  | .entries, rows => ∀ entry ∈ rows, entry.kind.RefersInto program
  | .params, rows => ∀ param ∈ rows, param.RefersInto program
  | .stmt _, kind => kind.RefersInto program
  | .stmts _, ids => ∀ id ∈ ids, program.HasStmt id
  | .other _, elseBlock =>
      ∀ block, elseBlock = some block → program.HasStmts block.stmts

/-- A node that reads as a tree refers to what is there. -/
theorem Tree.At.refersInto {program : Program} {category : Category}
    {tree : Tree category} {node : category.Node}
    (hat : tree.At program node) : category.RefersInto program node := by
  induction tree with
  | null | bool | int | float | str | ident | badge => cases hat; trivial
  | member | unary | assign =>
      obtain ⟨_, rfl, hvalue⟩ := hat
      exact hvalue.hasExpr
  | index | binary | compose =>
      obtain ⟨_, _, rfl, hleft, hright⟩ := hat
      exact ⟨hleft.hasExpr, hright.hasExpr⟩
  | array entries ih | args entries ih =>
      obtain ⟨_, rfl, hentries⟩ := hat
      exact hentries.hasEntries fun _ => ih
  | call callee arguments _ ih =>
      obtain ⟨_, _, rfl, hcallee, hargs⟩ := hat
      exact ⟨hcallee.hasExpr, hargs.hasEntries fun _ => ih⟩
  | func | funcBlock =>
      obtain ⟨_, rfl, hfunc⟩ := hat
      exact hfunc.hasFunc
  | absent => cases hat; nofun
  | present =>
      obtain ⟨_, rfl, hvalue⟩ := hat
      rintro _ ⟨⟩
      exact hvalue.hasExpr
  | noEntries | noParams | done => cases hat; nofun
  | item value others _ ih | keyed key value others _ ih =>
      obtain ⟨id, span, rest, rfl, hvalue, hrest⟩ := hat
      exact List.forall_mem_cons.mpr ⟨hvalue.hasExpr, ih hrest⟩
  | expand name others ih =>
      obtain ⟨span, rest, rfl, hrest⟩ := hat
      exact List.forall_mem_cons.mpr ⟨trivial, ih hrest⟩
  | rest name =>
      obtain ⟨span, rfl⟩ := hat
      exact List.forall_mem_singleton.mpr nofun
  | param name default others ihd ih =>
      obtain ⟨value, span, rest, rfl, hdefault, hrest⟩ := hat
      exact List.forall_mem_cons.mpr ⟨ihd hdefault, ih hrest⟩
  | expr =>
      obtain ⟨_, rfl, hvalue⟩ := hat
      exact hvalue.hasExpr
  | branch condition body other _ ihb iho =>
      obtain ⟨_, _, _, rfl, hcondition, hbody, hother⟩ := hat
      exact ⟨hcondition.hasExpr, hbody.hasStmts fun _ => ihb, iho hother⟩
  | scope body ih | assignBlock name body ih | inheritBlock name parent body ih =>
      obtain ⟨_, rfl, hbody⟩ := hat
      exact hbody.hasStmts fun _ => ih
  | loop key value iterated body _ ih | resource acquired binding body _ ih =>
      obtain ⟨_, _, rfl, hvalue, hbody⟩ := hat
      exact ⟨hvalue.hasExpr, hbody.hasStmts fun _ => ih⟩
  | attempt body head recovery ihb ihr =>
      obtain ⟨_, _, rfl, hbody, _, hkinds, hrecovery⟩ := hat
      exact ⟨hbody.hasStmts fun _ => ihb, ⟨_, hkinds⟩,
        hrecovery.hasStmts fun _ => ihr⟩
  | «return» value ih | raise value ih =>
      obtain ⟨_, rfl, hvalue⟩ := hat
      exact ih hvalue
  | «break» | «continue» => cases hat; trivial
  | next first others _ ih =>
      obtain ⟨_, rest, rfl, hfirst, hrest⟩ := hat
      exact List.forall_mem_cons.mpr ⟨hfirst.hasStmt, ih hrest⟩
  | noOther => cases hat; nofun
  | otherwise body ih =>
      obtain ⟨_, rfl, hbody⟩ := hat
      rintro _ ⟨⟩
      exact hbody.hasStmts fun _ => ih

namespace Program

variable (program : Program)

/-- A node reads as some tree. -/
def Shows (category : Category) (node : category.Node) : Prop :=
  ∃ tree : Tree category, tree.At program node

/-- An expression reads as some tree. -/
def ShowsExpr (id : ExprId) : Prop :=
  ∃ tree : Tree .expr, program.ExprIs id (tree.At program)

def ShowsStmt (inLoop : Bool) (id : StmtId) : Prop :=
  ∃ tree : Tree (.stmt inLoop), program.StmtIs id (tree.At program)

def ShowsStmts (inLoop : Bool) (range : StmtRange) : Prop :=
  ∃ tree : Tree (.stmts inLoop), program.StmtsAre range (tree.At program)

def ShowsEntries (range : EntryRange) : Prop :=
  ∃ tree : Tree .entries, program.EntriesAre range (tree.At program)

def ShowsParams (range : ParamRange) : Prop :=
  ∃ tree : Tree .params, program.ParamsAre range (tree.At program)

/-- A definition reads as a function of some parameters and some body, with no
loop around the body. -/
def ShowsFunc (name : String) (id : FuncId) : Prop :=
  ∃ (params : Tree .params) (body : Tree (.stmts false)),
    program.FuncIs id name (params.At program) (body.At program)

end Program

theorem Program.ShowsExpr.hasExpr {program : Program} {id : ExprId}
    (hshows : program.ShowsExpr id) : program.HasExpr id := by
  obtain ⟨_, hat⟩ := hshows
  exact ExprIs.hasExpr hat

theorem Program.ShowsStmts.hasStmts {program : Program} {inLoop : Bool}
    {range : StmtRange} (hshows : program.ShowsStmts inLoop range) :
    program.HasStmts range := by
  obtain ⟨tree, ids, hrows, hat⟩ := hshows
  exact ⟨ids, hrows, hat.refersInto⟩

theorem Program.ShowsParams.hasParams {program : Program} {range : ParamRange}
    (hshows : program.ShowsParams range) : program.HasParams range := by
  obtain ⟨tree, params, hrows, hat⟩ := hshows
  exact ⟨params, hrows, hat.refersInto⟩

section Growing

variable {before after : Program} (hgrows : before.Grows after)

include hgrows

theorem Program.Shows.grows {category : Category} {node : category.Node}
    (hshows : before.Shows category node) : after.Shows category node := by
  obtain ⟨tree, hat⟩ := hshows
  exact ⟨tree, hat.grows hgrows⟩

theorem Program.ShowsExpr.grows {id : ExprId} (hshows : before.ShowsExpr id) :
    after.ShowsExpr id := by
  obtain ⟨tree, hexpr⟩ := hshows
  exact ⟨tree, hexpr.grows hgrows fun _ hat => hat.grows hgrows⟩

theorem Program.ShowsStmt.grows {inLoop : Bool} {id : StmtId}
    (hshows : before.ShowsStmt inLoop id) : after.ShowsStmt inLoop id := by
  obtain ⟨tree, hstmt⟩ := hshows
  exact ⟨tree, hstmt.grows hgrows fun _ hat => hat.grows hgrows⟩

theorem Program.ShowsStmts.grows {inLoop : Bool} {range : StmtRange}
    (hshows : before.ShowsStmts inLoop range) :
    after.ShowsStmts inLoop range := by
  obtain ⟨tree, hstmts⟩ := hshows
  exact ⟨tree, hstmts.grows hgrows fun _ hat => hat.grows hgrows⟩

theorem Program.ShowsParams.grows {range : ParamRange}
    (hshows : before.ShowsParams range) : after.ShowsParams range := by
  obtain ⟨tree, hparams⟩ := hshows
  exact ⟨tree, hparams.grows hgrows fun _ hat => hat.grows hgrows⟩

theorem Program.ShowsFunc.grows {name : String} {id : FuncId}
    (hshows : before.ShowsFunc name id) : after.ShowsFunc name id := by
  obtain ⟨params, body, hfunc⟩ := hshows
  exact ⟨params, body, hfunc.grows hgrows (fun _ hat => hat.grows hgrows)
    fun _ hat => hat.grows hgrows⟩

end Growing

section Unique

variable {program : Program}

/-- Trees that one expression reads as are the same if they are for all
forms. -/
theorem Program.ExprIs.same {id : ExprId} {tree other : Tree .expr}
    (htree : program.ExprIs id (tree.At program))
    (hother : program.ExprIs id (other.At program))
    (hunique : ∀ {kind : ExprKind}, tree.At program kind →
      other.At program kind → tree = other) : tree = other := by
  obtain ⟨expr, hrow, hat⟩ := htree
  obtain ⟨_, hsame, halso⟩ := hother
  cases hrow.symm.trans hsame
  exact hunique hat halso

theorem Program.StmtIs.same {inLoop : Bool} {id : StmtId}
    {tree other : Tree (.stmt inLoop)}
    (htree : program.StmtIs id (tree.At program))
    (hother : program.StmtIs id (other.At program))
    (hunique : ∀ {kind : StmtKind}, tree.At program kind →
      other.At program kind → tree = other) : tree = other := by
  obtain ⟨stmt, hrow, hat⟩ := htree
  obtain ⟨_, hsame, halso⟩ := hother
  cases hrow.symm.trans hsame
  exact hunique hat halso

theorem Program.StmtsAre.same {inLoop : Bool} {range : StmtRange}
    {tree other : Tree (.stmts inLoop)}
    (htree : program.StmtsAre range (tree.At program))
    (hother : program.StmtsAre range (other.At program))
    (hunique : ∀ {ids : List StmtId}, tree.At program ids →
      other.At program ids → tree = other) : tree = other := by
  obtain ⟨ids, hrows, hat⟩ := htree
  obtain ⟨_, hsame, halso⟩ := hother
  cases hrows.symm.trans hsame
  exact hunique hat halso

theorem Program.EntriesAre.same {range : EntryRange}
    {tree other : Tree .entries}
    (htree : program.EntriesAre range (tree.At program))
    (hother : program.EntriesAre range (other.At program))
    (hunique : ∀ {entries : List Entry}, tree.At program entries →
      other.At program entries → tree = other) : tree = other := by
  obtain ⟨entries, hrows, hat⟩ := htree
  obtain ⟨_, hsame, halso⟩ := hother
  cases hrows.symm.trans hsame
  exact hunique hat halso

theorem Program.ParamsAre.same {range : ParamRange}
    {tree other : Tree .params}
    (htree : program.ParamsAre range (tree.At program))
    (hother : program.ParamsAre range (other.At program))
    (hunique : ∀ {params : List Param}, tree.At program params →
      other.At program params → tree = other) : tree = other := by
  obtain ⟨params, hrows, hat⟩ := htree
  obtain ⟨_, hsame, halso⟩ := hother
  cases hrows.symm.trans hsame
  exact hunique hat halso

/-- Two readings of one definition are of the same name, parameters and
body. -/
theorem Program.FuncIs.both {id : FuncId} {name title : String}
    {params others : List Param → Prop} {body block : List StmtId → Prop}
    (hone : program.FuncIs id name params body)
    (hother : program.FuncIs id title others block) :
    name = title ∧
      ∃ func : FuncDef, program.ParamsAre func.params params ∧
        program.ParamsAre func.params others ∧
        program.StmtsAre func.body.stmts body ∧
        program.StmtsAre func.body.stmts block := by
  obtain ⟨func, hrow, hname, hparams, hbody⟩ := hone
  obtain ⟨_, hsame, htitle, hothers, hblock⟩ := hother
  cases hrow.symm.trans hsame
  exact ⟨hname.symm.trans htitle, func, hparams, hothers, hbody, hblock⟩

theorem WrittenKey.ext {one other : WrittenKey} (hkey : one.key = other.key) :
    one = other := by
  cases one
  cases other
  cases hkey
  rfl

theorem CatchHead.ext {one other : CatchHead}
    (hbinding : one.binding = other.binding) (hkinds : one.kinds = other.kinds) :
    one = other := by
  cases one <;> cases other <;> simp_all [CatchHead.binding, CatchHead.kinds]

/-- A node reads as at most one tree. -/
theorem Tree.At.unique {category : Category} {tree other : Tree category}
    {node : category.Node} (hat : tree.At program node)
    (hother : other.At program node) : tree = other := by
  induction tree with
  | null | bool value | int value | float value | str text | ident name =>
      cases hat
      cases other <;> first | cases hother; rfl | simp [Tree.At] at hother
  | badge key =>
      cases hat
      cases other with
      | badge key => rw [WrittenKey.ext (ExprKind.badge.inj hother)]
      | _ => simp [Tree.At] at hother
  | member receiver key ih =>
      obtain ⟨id, rfl, hreceiver⟩ := hat
      cases other with
      | member =>
          obtain ⟨_, hkind, hsame⟩ := hother
          obtain ⟨rfl, hkey⟩ := ExprKind.member.inj hkind
          rw [hreceiver.same hsame ih, WrittenKey.ext hkey]
      | _ => simp [Tree.At] at hother
  | index receiver key ihr ihk =>
      obtain ⟨left, right, rfl, hreceiver, hkey⟩ := hat
      cases other with
      | index =>
          obtain ⟨_, _, ⟨⟩, hsame, halso⟩ := hother
          rw [hreceiver.same hsame ihr, hkey.same halso ihk]
      | _ => simp [Tree.At] at hother
  | array entries ih =>
      obtain ⟨range, rfl, hentries⟩ := hat
      cases other with
      | array =>
          obtain ⟨_, ⟨⟩, hsame⟩ := hother
          rw [hentries.same hsame ih]
      | _ => simp [Tree.At] at hother
  | args entries ih =>
      obtain ⟨range, rfl, hentries⟩ := hat
      cases other with
      | args =>
          obtain ⟨_, ⟨⟩, hsame⟩ := hother
          rw [hentries.same hsame ih]
      | _ => simp [Tree.At] at hother
  | binary op left right ihl ihr =>
      obtain ⟨one, two, rfl, hleft, hright⟩ := hat
      cases other with
      | binary =>
          obtain ⟨_, _, ⟨⟩, hsame, halso⟩ := hother
          rw [hleft.same hsame ihl, hright.same halso ihr]
      | _ => simp [Tree.At] at hother
  | unary op operand ih =>
      obtain ⟨id, rfl, hoperand⟩ := hat
      cases other with
      | unary =>
          obtain ⟨_, ⟨⟩, hsame⟩ := hother
          rw [hoperand.same hsame ih]
      | _ => simp [Tree.At] at hother
  | compose left right ihl ihr =>
      obtain ⟨one, two, rfl, hleft, hright⟩ := hat
      cases other with
      | compose =>
          obtain ⟨_, _, ⟨⟩, hsame, halso⟩ := hother
          rw [hleft.same hsame ihl, hright.same halso ihr]
      | _ => simp [Tree.At] at hother
  | call callee arguments ihc iha =>
      obtain ⟨id, range, rfl, hcallee, hargs⟩ := hat
      cases other with
      | call =>
          obtain ⟨_, _, ⟨⟩, hsame, halso⟩ := hother
          rw [hcallee.same hsame ihc, hargs.same halso iha]
      | _ => simp [Tree.At] at hother
  | assign target value ih =>
      obtain ⟨id, rfl, hvalue⟩ := hat
      cases other with
      | assign =>
          obtain ⟨_, hkind, hsame⟩ := hother
          obtain ⟨hkey, rfl⟩ := ExprKind.assign.inj hkind
          rw [hvalue.same hsame ih, WrittenKey.ext hkey]
      | _ => simp [Tree.At] at hother
  | func params body ihp ihb =>
      obtain ⟨id, rfl, hfunc⟩ := hat
      cases other with
      | func =>
          obtain ⟨_, ⟨⟩, hsame⟩ := hother
          obtain ⟨_, _, hone, htwo, hthree, hfour⟩ := hfunc.both hsame
          rw [hone.same htwo ihp, hthree.same hfour ihb]
      | _ => simp [Tree.At] at hother
  | absent =>
      cases hat
      cases other with
      | absent => rfl
      | present => simp [Tree.At] at hother
  | present value ih =>
      obtain ⟨id, rfl, hvalue⟩ := hat
      cases other with
      | absent => simp [Tree.At] at hother
      | present =>
          obtain ⟨_, ⟨⟩, hsame⟩ := hother
          rw [hvalue.same hsame ih]
  | noEntries =>
      cases hat
      cases other with
      | noEntries => rfl
      | _ => simp [Tree.At] at hother
  | item value others ihv iho =>
      obtain ⟨id, span, rest, rfl, hvalue, hrest⟩ := hat
      cases other with
      | item =>
          obtain ⟨_, _, _, ⟨⟩, hsame, halso⟩ := hother
          rw [hvalue.same hsame ihv, iho hrest halso]
      | _ => simp [Tree.At] at hother
  | keyed key value others ihv iho =>
      obtain ⟨id, span, rest, rfl, hvalue, hrest⟩ := hat
      cases other with
      | keyed =>
          obtain ⟨_, _, _, hrows, hsame, halso⟩ := hother
          obtain ⟨hentry, rfl⟩ := List.cons.inj hrows
          obtain ⟨hkind, _⟩ := Entry.mk.inj hentry
          obtain ⟨hkey, rfl⟩ := EntryKind.keyed.inj hkind
          rw [hvalue.same hsame ihv, iho hrest halso, WrittenKey.ext hkey]
      | _ => simp [Tree.At] at hother
  | expand name others ih =>
      obtain ⟨span, rest, rfl, hrest⟩ := hat
      cases other with
      | expand =>
          obtain ⟨_, _, ⟨⟩, halso⟩ := hother
          rw [ih hrest halso]
      | _ => simp [Tree.At] at hother
  | noParams =>
      cases hat
      cases other with
      | noParams => rfl
      | _ => simp [Tree.At] at hother
  | rest name =>
      obtain ⟨span, rfl⟩ := hat
      cases other with
      | rest =>
          obtain ⟨_, ⟨⟩⟩ := hother
          rfl
      | _ => simp [Tree.At] at hother
  | param name default others ihd iho =>
      obtain ⟨value, span, rest, rfl, hdefault, hrest⟩ := hat
      cases other with
      | param =>
          obtain ⟨_, _, _, ⟨⟩, hsame, halso⟩ := hother
          rw [ihd hdefault hsame, iho hrest halso]
      | _ => simp [Tree.At] at hother
  | expr value ih =>
      obtain ⟨id, rfl, hvalue⟩ := hat
      cases other with
      | expr =>
          obtain ⟨_, ⟨⟩, hsame⟩ := hother
          rw [hvalue.same hsame ih]
      | _ => simp [Tree.At] at hother
  | branch condition body other ihc ihb iho =>
      obtain ⟨id, block, elseBlock, rfl, hcondition, hbody, helse⟩ := hat
      cases other with
      | branch =>
          obtain ⟨_, _, _, ⟨⟩, hfirst, hsecond, hthird⟩ := hother
          rw [hcondition.same hfirst ihc, hbody.same hsecond ihb,
            iho helse hthird]
      | _ => simp [Tree.At] at hother
  | scope body ih =>
      obtain ⟨block, rfl, hbody⟩ := hat
      cases other with
      | scope =>
          obtain ⟨_, ⟨⟩, hsame⟩ := hother
          rw [hbody.same hsame ih]
      | _ => simp [Tree.At] at hother
  | loop key value iterated body ihi ihb =>
      obtain ⟨id, block, rfl, hiterated, hbody⟩ := hat
      cases other with
      | loop =>
          obtain ⟨_, _, ⟨⟩, hsame, halso⟩ := hother
          rw [hiterated.same hsame ihi, hbody.same halso ihb]
      | _ => simp [Tree.At] at hother
  | attempt body head recovery ihb ihr =>
      obtain ⟨block, clause, rfl, hbody, hbinding, hkinds, hrecovery⟩ := hat
      cases other with
      | attempt =>
          obtain ⟨_, _, ⟨⟩, hsame, hname, hlist, halso⟩ := hother
          rw [hbody.same hsame ihb, hrecovery.same halso ihr,
            CatchHead.ext (hbinding.symm.trans hname)
              (Option.some.inj (hkinds.symm.trans hlist))]
      | _ => simp [Tree.At] at hother
  | resource acquired binding body iha ihb =>
      obtain ⟨id, block, rfl, hacquired, hbody⟩ := hat
      cases other with
      | resource =>
          obtain ⟨_, _, ⟨⟩, hsame, halso⟩ := hother
          rw [hacquired.same hsame iha, hbody.same halso ihb]
      | _ => simp [Tree.At] at hother
  | assignBlock name body ih =>
      obtain ⟨block, rfl, hbody⟩ := hat
      cases other with
      | assignBlock =>
          obtain ⟨_, ⟨⟩, hsame⟩ := hother
          rw [hbody.same hsame ih]
      | _ => simp [Tree.At] at hother
  | funcBlock name params body ihp ihb =>
      obtain ⟨id, rfl, hfunc⟩ := hat
      cases other with
      | funcBlock =>
          obtain ⟨_, ⟨⟩, hsame⟩ := hother
          obtain ⟨_, _, hone, htwo, hthree, hfour⟩ := hfunc.both hsame
          rw [hone.same htwo ihp, hthree.same hfour ihb]
      | _ => simp [Tree.At] at hother
  | inheritBlock name parent body ih =>
      obtain ⟨block, rfl, hbody⟩ := hat
      cases other with
      | inheritBlock =>
          obtain ⟨_, ⟨⟩, hsame⟩ := hother
          rw [hbody.same hsame ih]
      | _ => simp [Tree.At] at hother
  | «return» value ih =>
      obtain ⟨id, rfl, hvalue⟩ := hat
      cases other with
      | «return» =>
          obtain ⟨_, ⟨⟩, hsame⟩ := hother
          rw [ih hvalue hsame]
      | _ => simp [Tree.At] at hother
  | raise value ih =>
      obtain ⟨id, rfl, hvalue⟩ := hat
      cases other with
      | raise =>
          obtain ⟨_, ⟨⟩, hsame⟩ := hother
          rw [ih hvalue hsame]
      | _ => simp [Tree.At] at hother
  | «break» | «continue» =>
      cases hat
      cases other <;> first | rfl | simp [Tree.At] at hother
  | done =>
      cases hat
      cases other with
      | done => rfl
      | next => simp [Tree.At] at hother
  | next first others ihf iho =>
      obtain ⟨id, rest, rfl, hfirst, hrest⟩ := hat
      cases other with
      | done => simp [Tree.At] at hother
      | next =>
          obtain ⟨_, _, ⟨⟩, hsame, halso⟩ := hother
          rw [hfirst.same hsame ihf, iho hrest halso]
  | noOther =>
      cases hat
      cases other with
      | noOther => rfl
      | otherwise => simp [Tree.At] at hother
  | otherwise body ih =>
      obtain ⟨block, rfl, hbody⟩ := hat
      cases other with
      | noOther => simp [Tree.At] at hother
      | otherwise =>
          obtain ⟨_, ⟨⟩, hsame⟩ := hother
          rw [hbody.same hsame ih]

end Unique

end ChainScript
