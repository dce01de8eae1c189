import Mathlib.Order.WellFounded
import ChainScript.Proofs.BuiltPrograms

/-
The nodes of a program and their children.

In a program that was built row by row all references and ranges of all rows
are in the tables.  The children of a node were there before the node, so that
going from nodes to their children always ends.
-/

namespace ChainScript

namespace Program

/-- All that the rows of one program refer to is there in another one. -/
structure RefersInto (program into : Program) : Prop where
  exprs : ∀ expr ∈ program.exprs, expr.kind.RefersInto into
  stmts : ∀ stmt ∈ program.stmts, stmt.kind.RefersInto into
  stmtLists : ∀ id ∈ program.stmtLists, into.HasStmt id
  entries : ∀ entry ∈ program.entries, entry.kind.RefersInto into
  params : ∀ param ∈ program.params, param.RefersInto into
  funcs : ∀ func ∈ program.funcs, func.RefersInto into

/-- All references and ranges of all rows are in the tables. -/
def Closed (program : Program) : Prop :=
  program.RefersInto program

theorem RefersInto.grows {program before after : Program}
    (hrefers : program.RefersInto before) (hgrows : before.Grows after) :
    program.RefersInto after where
  exprs expr hexpr := (hrefers.exprs expr hexpr).grows hgrows
  stmts stmt hstmt := (hrefers.stmts stmt hstmt).grows hgrows
  stmtLists id hid := (hrefers.stmtLists id hid).grows hgrows
  entries entry hentry := (hrefers.entries entry hentry).grows hgrows
  params param hparam := (hrefers.params param hparam).grows hgrows
  funcs func hfunc := (hrefers.funcs func hfunc).grows hgrows

/-- The rows of a program that was built refer to what is there. -/
theorem Built.closed {program : Program} (hbuilt : program.Built) :
    program.Closed := by
  induction hbuilt with
  | empty number => constructor <;> simp [Program.empty]
  | @addExpr program expr _ hkind ih =>
      have hgrows := program.grows_addExpr expr
      have hold := ih.grows hgrows
      exact { hold with
        exprs := fun row hrow => (Array.mem_push.mp hrow).elim
          (hold.exprs row) fun hnew => hnew ▸ hkind.grows hgrows }
  | @addStmt program stmt _ hkind ih =>
      have hgrows := program.grows_addStmt stmt
      have hold := ih.grows hgrows
      exact { hold with
        stmts := fun row hrow => (Array.mem_push.mp hrow).elim
          (hold.stmts row) fun hnew => hnew ▸ hkind.grows hgrows }
  | @addFunc program func _ hfunc ih =>
      have hgrows := program.grows_addFunc func
      have hold := ih.grows hgrows
      exact { hold with
        funcs := fun row hrow => (Array.mem_push.mp hrow).elim
          (hold.funcs row) fun hnew => hnew ▸ hfunc.grows hgrows }
  | @addStmtList program stmts _ hstmts ih =>
      have hgrows := program.grows_addStmtList stmts
      have hold := ih.grows hgrows
      exact { hold with
        stmtLists := fun id hid => (Array.mem_append.mp hid).elim
          (hold.stmtLists id) fun hnew =>
            (hstmts id (List.mem_toArray.mp hnew)).grows hgrows }
  | @addEntries program entries _ hentries ih =>
      have hgrows := program.grows_addEntries entries
      have hold := ih.grows hgrows
      exact { hold with
        entries := fun row hrow => (Array.mem_append.mp hrow).elim
          (hold.entries row) fun hnew =>
            (hentries row (List.mem_toArray.mp hnew)).grows hgrows }
  | @addParams program params _ hparams ih =>
      have hgrows := program.grows_addParams params
      have hold := ih.grows hgrows
      exact { hold with
        params := fun row hrow => (Array.mem_append.mp hrow).elim
          (hold.params row) fun hnew =>
            (hparams row (List.mem_toArray.mp hnew)).grows hgrows }
  | @addNames program names _ ih =>
      have hold := ih.grows (program.grows_addNames names)
      exact { hold with }

end Program

/-- The nodes of programs. -/
inductive Node where
  | expr (id : ExprId)
  | stmt (id : StmtId)
  | func (id : FuncId)
deriving DecidableEq

/-- The row of the node is there. -/
def Program.HasNode (program : Program) : Node → Prop
  | .expr id => program.HasExpr id
  | .stmt id => program.HasStmt id
  | .func id => program.HasFunc id

def EntryKind.nodes : EntryKind → List Node
  | .item value | .keyed _ value => [.expr value]
  | .expand _ => []

def Param.nodes (param : Param) : List Node :=
  (param.default.map Node.expr).toList

namespace Program

variable (program : Program)

/-- The nodes that a list of entries refers to. -/
def entryNodes (range : EntryRange) : List Node :=
  ((program.entries? range).getD []).flatMap fun entry => entry.kind.nodes

def paramNodes (range : ParamRange) : List Node :=
  ((program.params? range).getD []).flatMap Param.nodes

def stmtNodes (range : StmtRange) : List Node :=
  ((program.stmtList? range).getD []).map Node.stmt

end Program

/-- The nodes that an expression refers to, also through ranges. -/
def ExprKind.nodes (program : Program) : ExprKind → List Node
  | .null | .bool _ | .int _ | .float _ | .str _ | .ident _ | .badge _ => []
  | .member receiver _ => [.expr receiver]
  | .index receiver key => [.expr receiver, .expr key]
  | .array range | .args range => program.entryNodes range
  | .binary _ left right | .compose left right => [.expr left, .expr right]
  | .unary _ operand => [.expr operand]
  | .call callee range => .expr callee :: program.entryNodes range
  | .assign _ value => [.expr value]
  | .func definition => [.func definition]

/-- The nodes that a statement refers to, also through its blocks. -/
def StmtKind.nodes (program : Program) : StmtKind → List Node
  | .expr value => [.expr value]
  | .branch condition thenBlock elseBlock =>
      .expr condition :: program.stmtNodes thenBlock.stmts ++
        elseBlock.toList.flatMap fun block => program.stmtNodes block.stmts
  | .scope body => program.stmtNodes body.stmts
  | .loop _ _ iterated body =>
      .expr iterated :: program.stmtNodes body.stmts
  | .attempt body recovery =>
      program.stmtNodes body.stmts ++ program.stmtNodes recovery.body.stmts
  | .resource acquired _ body =>
      .expr acquired :: program.stmtNodes body.stmts
  | .assignBlock _ body => program.stmtNodes body.stmts
  | .funcBlock _ definition => [.func definition]
  | .inheritBlock _ _ body => program.stmtNodes body.stmts
  | .return value | .raise value => (value.map Node.expr).toList
  | .break | .continue => []

/-- The nodes that a function refers to: the defaults of its parameters and
the statements of its body. -/
def FuncDef.nodes (program : Program) (func : FuncDef) : List Node :=
  program.paramNodes func.params ++ program.stmtNodes func.body.stmts

/-- The children of a node.  A node without a row has none. -/
def Program.children (program : Program) : Node → List Node
  | .expr id =>
      (program.expr? id).elim [] fun expr => expr.kind.nodes program
  | .stmt id =>
      (program.stmt? id).elim [] fun stmt => stmt.kind.nodes program
  | .func id => (program.func? id).elim [] fun func => func.nodes program

/-- One node is a child of another one. -/
def Program.Child (program : Program) (child parent : Node) : Prop :=
  child ∈ program.children parent

section Growing

variable {before after : Program} (hgrows : before.Grows after)

include hgrows

/-- Nodes that a list refers to stay the same when rows are added, and all of
them are there. -/
theorem Program.HasEntries.nodes {range : EntryRange}
    (hentries : before.HasEntries range) :
    after.entryNodes range = before.entryNodes range ∧
      ∀ node ∈ before.entryNodes range, before.HasNode node := by
  obtain ⟨entries, hrows, hall⟩ := hentries
  constructor
  · simp [entryNodes, hrows, hgrows.entries? hrows]
  · intro node hnode
    simp only [entryNodes, hrows, Option.getD_some, List.mem_flatMap] at hnode
    obtain ⟨entry, hentry, hnode⟩ := hnode
    have hrefers := hall entry hentry
    cases hkind : entry.kind with
    | item value | keyed _ value =>
        rw [hkind] at hnode hrefers
        cases List.mem_singleton.mp hnode
        exact hrefers
    | expand name =>
        rw [hkind] at hnode
        cases hnode

theorem Program.HasParams.nodes {range : ParamRange}
    (hparams : before.HasParams range) :
    after.paramNodes range = before.paramNodes range ∧
      ∀ node ∈ before.paramNodes range, before.HasNode node := by
  obtain ⟨params, hrows, hall⟩ := hparams
  constructor
  · simp [paramNodes, hrows, hgrows.params? hrows]
  · intro node hnode
    simp only [paramNodes, hrows, Option.getD_some, List.mem_flatMap,
      Param.nodes, Option.mem_toList, Option.map_eq_some_iff] at hnode
    obtain ⟨param, hparam, id, hdefault, rfl⟩ := hnode
    exact hall param hparam id hdefault

theorem Program.HasStmts.nodes {range : StmtRange}
    (hstmts : before.HasStmts range) :
    after.stmtNodes range = before.stmtNodes range ∧
      ∀ node ∈ before.stmtNodes range, before.HasNode node := by
  obtain ⟨ids, hrows, hall⟩ := hstmts
  constructor
  · simp [stmtNodes, hrows, hgrows.stmtList? hrows]
  · intro node hnode
    simp only [stmtNodes, hrows, Option.getD_some, List.mem_map] at hnode
    obtain ⟨id, hid, rfl⟩ := hnode
    exact hall id hid

theorem ExprKind.RefersInto.nodes {kind : ExprKind}
    (hkind : kind.RefersInto before) :
    kind.nodes after = kind.nodes before ∧
      ∀ node ∈ kind.nodes before, before.HasNode node := by
  cases kind with
  | null | bool | int | float | str | ident | badge =>
      exact ⟨rfl, nofun⟩
  | member | unary | assign | func =>
      exact ⟨rfl, List.forall_mem_singleton.mpr hkind⟩
  | index | binary | compose =>
      exact ⟨rfl, List.forall_mem_cons.mpr
        ⟨hkind.1, List.forall_mem_singleton.mpr hkind.2⟩⟩
  | array | args => exact Program.HasEntries.nodes hgrows hkind
  | call callee range =>
      obtain ⟨hcallee, hentries⟩ := hkind
      obtain ⟨hsame, hall⟩ := hentries.nodes hgrows
      exact ⟨congrArg _ hsame, List.forall_mem_cons.mpr ⟨hcallee, hall⟩⟩

theorem StmtKind.RefersInto.nodes {kind : StmtKind}
    (hkind : kind.RefersInto before) :
    kind.nodes after = kind.nodes before ∧
      ∀ node ∈ kind.nodes before, before.HasNode node := by
  cases kind with
  | expr | funcBlock => exact ⟨rfl, List.forall_mem_singleton.mpr hkind⟩
  | branch condition thenBlock elseBlock =>
      obtain ⟨hcondition, hthen, helse⟩ := hkind
      obtain ⟨hsame, hall⟩ := hthen.nodes hgrows
      cases elseBlock with
      | none =>
          simp only [StmtKind.nodes, hsame, Option.toList_none,
            List.flatMap_nil, List.append_nil]
          exact ⟨trivial, List.forall_mem_cons.mpr ⟨hcondition, hall⟩⟩
      | some block =>
          obtain ⟨hother, hothers⟩ := (helse block rfl).nodes hgrows
          simp only [StmtKind.nodes, hsame, hother, Option.toList_some,
            List.flatMap_singleton]
          exact ⟨trivial, List.forall_mem_append.mpr
            ⟨List.forall_mem_cons.mpr ⟨hcondition, hall⟩, hothers⟩⟩
  | scope | assignBlock | inheritBlock =>
      exact Program.HasStmts.nodes hgrows hkind
  | loop | resource =>
      obtain ⟨hvalue, hbody⟩ := hkind
      obtain ⟨hsame, hall⟩ := hbody.nodes hgrows
      exact ⟨congrArg _ hsame, List.forall_mem_cons.mpr ⟨hvalue, hall⟩⟩
  | attempt body recovery =>
      obtain ⟨hbody, _, hrecovery⟩ := hkind
      obtain ⟨hsame, hall⟩ := hbody.nodes hgrows
      obtain ⟨hother, hothers⟩ := hrecovery.nodes hgrows
      simp only [StmtKind.nodes, hsame, hother]
      exact ⟨trivial, List.forall_mem_append.mpr ⟨hall, hothers⟩⟩
  | «return» value | raise value =>
      refine ⟨rfl, fun node hnode => ?_⟩
      simp only [StmtKind.nodes, Option.mem_toList,
        Option.map_eq_some_iff] at hnode
      obtain ⟨id, hid, rfl⟩ := hnode
      exact hkind id hid
  | «break» | «continue» => exact ⟨rfl, nofun⟩

theorem FuncDef.RefersInto.nodes {func : FuncDef}
    (hfunc : func.RefersInto before) :
    func.nodes after = func.nodes before ∧
      ∀ node ∈ func.nodes before, before.HasNode node := by
  obtain ⟨hparams, hbody⟩ := hfunc
  obtain ⟨hsame, hall⟩ := hparams.nodes hgrows
  obtain ⟨hother, hothers⟩ := hbody.nodes hgrows
  simp only [FuncDef.nodes, hsame, hother]
  exact ⟨trivial, List.forall_mem_append.mpr ⟨hall, hothers⟩⟩

end Growing

namespace Program

/-- The children of a node that is there stay the same when rows are added,
and all of them are there. -/
theorem Built.children {before after : Program} (hbuilt : before.Built)
    (hgrows : before.Grows after) {node : Node} (hnode : before.HasNode node) :
    after.children node = before.children node ∧
      ∀ child ∈ before.children node, before.HasNode child := by
  cases node with
  | expr id =>
      obtain ⟨expr, hrow⟩ := hnode
      simp only [Program.children, hrow, hgrows.expr? hrow, Option.elim_some]
      exact (hbuilt.expr_refersInto hrow).nodes hgrows
  | stmt id =>
      obtain ⟨stmt, hrow⟩ := hnode
      simp only [Program.children, hrow, hgrows.stmt? hrow, Option.elim_some]
      exact (hbuilt.stmt_refersInto hrow).nodes hgrows
  | func id =>
      obtain ⟨func, hrow⟩ := hnode
      simp only [Program.children, hrow, hgrows.func? hrow, Option.elim_some]
      exact (hbuilt.func_refersInto hrow).nodes hgrows

/-- Going to children ends after rows are added where it did before. -/
theorem Built.acc {before after : Program} (hbuilt : before.Built)
    (hgrows : before.Grows after) {node : Node} (hnode : before.HasNode node)
    (hacc : Acc before.Child node) : Acc after.Child node := by
  induction hacc with
  | intro node _ ih =>
      obtain ⟨hsame, hall⟩ := hbuilt.children hgrows hnode
      constructor
      intro child hchild
      rw [Child, hsame] at hchild
      exact ih child hchild (hall child hchild)

theorem children_of_not_hasNode {program : Program} {node : Node}
    (hnode : ¬ program.HasNode node) : program.children node = [] := by
  cases node with
  | expr id =>
      cases hrow : program.expr? id with
      | none => simp [Program.children, hrow]
      | some expr => exact absurd ⟨expr, hrow⟩ hnode
  | stmt id =>
      cases hrow : program.stmt? id with
      | none => simp [Program.children, hrow]
      | some stmt => exact absurd ⟨stmt, hrow⟩ hnode
  | func id =>
      cases hrow : program.func? id with
      | none => simp [Program.children, hrow]
      | some func => exact absurd ⟨func, hrow⟩ hnode

/-- Going to children still ends when rows are added whose children were there
before. -/
theorem Built.acc_of_new {before after : Program} (hbuilt : before.Built)
    (hgrows : before.Grows after) (hacc : ∀ node, Acc before.Child node)
    (hnew : ∀ node, after.HasNode node → before.HasNode node ∨
      ∀ child ∈ after.children node, before.HasNode child) (node : Node) :
    Acc after.Child node := by
  by_cases hnode : after.HasNode node
  · rcases hnew node hnode with hold | hchildren
    · exact hbuilt.acc hgrows hold (hacc node)
    · constructor
      intro child hchild
      exact hbuilt.acc hgrows (hchildren child hchild) (hacc child)
  · constructor
    intro child hchild
    rw [Child, children_of_not_hasNode hnode] at hchild
    cases hchild

/-- In a program that was built, going from nodes to their children ends. -/
theorem Built.acc_child {program : Program} (hbuilt : program.Built)
    (node : Node) : Acc program.Child node := by
  induction hbuilt generalizing node with
  | empty number =>
      constructor
      intro child hchild
      cases node <;>
        simp [Child, Program.children, Program.empty, expr?, stmt?, func?,
          Ref.row?] at hchild
  | @addExpr program expr hbuilt hkind ih =>
      have hgrows := program.grows_addExpr expr
      refine hbuilt.acc_of_new hgrows ih ?_ node
      intro node hnode
      cases node with
      | expr id =>
          obtain ⟨row, hrow⟩ := hnode
          rcases row?_push hrow with ⟨_, rfl⟩ | hold
          · obtain ⟨hsame, hall⟩ := hkind.nodes hgrows
            right
            simpa only [Program.children, hrow, Option.elim_some, hsame]
          · exact .inl ⟨row, hold⟩
      | stmt id => exact .inl hnode
      | func id => exact .inl hnode
  | @addStmt program stmt hbuilt hkind ih =>
      have hgrows := program.grows_addStmt stmt
      refine hbuilt.acc_of_new hgrows ih ?_ node
      intro node hnode
      cases node with
      | expr id => exact .inl hnode
      | stmt id =>
          obtain ⟨row, hrow⟩ := hnode
          rcases row?_push hrow with ⟨_, rfl⟩ | hold
          · obtain ⟨hsame, hall⟩ := hkind.nodes hgrows
            right
            simpa only [Program.children, hrow, Option.elim_some, hsame]
          · exact .inl ⟨row, hold⟩
      | func id => exact .inl hnode
  | @addFunc program func hbuilt hfunc ih =>
      have hgrows := program.grows_addFunc func
      refine hbuilt.acc_of_new hgrows ih ?_ node
      intro node hnode
      cases node with
      | expr id => exact .inl hnode
      | stmt id => exact .inl hnode
      | func id =>
          obtain ⟨row, hrow⟩ := hnode
          rcases row?_push hrow with ⟨_, rfl⟩ | hold
          · obtain ⟨hsame, hall⟩ := hfunc.nodes hgrows
            right
            simpa only [Program.children, hrow, Option.elim_some, hsame]
          · exact .inl ⟨row, hold⟩
  | addStmtList hbuilt _ ih =>
      exact hbuilt.acc_of_new (grows_addStmtList _ _) ih
        (fun node hnode => .inl (by cases node <;> exact hnode)) node
  | addEntries hbuilt _ ih =>
      exact hbuilt.acc_of_new (grows_addEntries _ _) ih
        (fun node hnode => .inl (by cases node <;> exact hnode)) node
  | addParams hbuilt _ ih =>
      exact hbuilt.acc_of_new (grows_addParams _ _) ih
        (fun node hnode => .inl (by cases node <;> exact hnode)) node
  | addNames hbuilt ih =>
      exact hbuilt.acc_of_new (grows_addNames _ _) ih
        (fun node hnode => .inl (by cases node <;> exact hnode)) node

/-- Following children never leads back to a node. -/
theorem Built.no_cycle {program : Program} (hbuilt : program.Built)
    (node : Node) : ¬ Relation.TransGen program.Child node node := by
  have hfounded : WellFounded program.Child := ⟨hbuilt.acc_child⟩
  exact hfounded.transGen.irrefl.irrefl node

end Program

end ChainScript
