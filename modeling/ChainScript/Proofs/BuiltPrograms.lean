import ChainScript.Syntax

/-
Programs whose rows refer only to rows that were there before them.

A program is built from empty tables by adding rows one list at a time, each
of which refers to rows that have been added already.  Nothing is ever taken
out, so a row and all it refers to stay what they are, and following references
leads to ever smaller row numbers.
-/

namespace ChainScript

section Rows

variable {α : Type} {table : Table} {program : Nat} {rows more : Array α}

theorem Ref.row?_eq_some {ref : Ref table} {row : α} :
    ref.row? program rows = some row ↔
      ref.program = program ∧ rows[ref.index]? = some row := by
  unfold Ref.row?
  split <;> simp_all

/-- A row stays what it is when rows are added. -/
theorem Ref.row?_of_prefix {ref : Ref table} {row : α}
    (hlonger : rows.toList <+: more.toList)
    (hrow : ref.row? program rows = some row) :
    ref.row? program more = some row := by
  obtain ⟨hprogram, hget⟩ := row?_eq_some.mp hrow
  refine row?_eq_some.mpr ⟨hprogram, ?_⟩
  obtain ⟨added, hadded⟩ := hlonger
  rw [← Array.getElem?_toList] at hget ⊢
  obtain ⟨hlt, _⟩ := List.getElem?_eq_some_iff.mp hget
  rw [← hadded, List.getElem?_append_left hlt, hget]

theorem Slice.rows?_of_prefix {slice : Slice table} {found : List α}
    (hlonger : rows.toList <+: more.toList)
    (hfound : slice.rows? program rows = some found) :
    slice.rows? program more = some found := by
  unfold Slice.rows? at hfound ⊢
  split at hfound
  · next hin =>
      obtain ⟨added, hadded⟩ := hlonger
      have hsize : rows.size ≤ more.size := by
        simp only [← Array.length_toList, ← hadded, List.length_append]
        omega
      rw [if_pos ⟨hin.1, Nat.le_trans hin.2 hsize⟩, ← hfound]
      simp only [Array.toList_extract, ← hadded, List.extract_eq_take_drop,
        Option.some.injEq]
      rw [List.drop_append_of_le_length (by simp; omega),
        List.take_append_of_le_length (by simp; omega)]
  · cases hfound

end Rows

namespace Program

/-- Rows have been added at the end of the tables. -/
structure Grows (before after : Program) : Prop where
  number : after.number = before.number
  exprs : before.exprs.toList <+: after.exprs.toList
  stmts : before.stmts.toList <+: after.stmts.toList
  stmtLists : before.stmtLists.toList <+: after.stmtLists.toList
  entries : before.entries.toList <+: after.entries.toList
  params : before.params.toList <+: after.params.toList
  names : before.names.toList <+: after.names.toList
  funcs : before.funcs.toList <+: after.funcs.toList

variable {before after : Program}

theorem Grows.refl (program : Program) : program.Grows program :=
  ⟨rfl, List.prefix_rfl, List.prefix_rfl, List.prefix_rfl, List.prefix_rfl,
    List.prefix_rfl, List.prefix_rfl, List.prefix_rfl⟩

theorem Grows.trans {last : Program} (hfirst : before.Grows after)
    (hsecond : after.Grows last) : before.Grows last :=
  ⟨hsecond.number.trans hfirst.number, hfirst.exprs.trans hsecond.exprs,
    hfirst.stmts.trans hsecond.stmts,
    hfirst.stmtLists.trans hsecond.stmtLists,
    hfirst.entries.trans hsecond.entries, hfirst.params.trans hsecond.params,
    hfirst.names.trans hsecond.names, hfirst.funcs.trans hsecond.funcs⟩

section Rows

variable (hgrows : before.Grows after)

include hgrows

theorem Grows.expr? {id : ExprId} {expr : Expr}
    (hrow : before.expr? id = some expr) : after.expr? id = some expr := by
  unfold Program.expr? at hrow ⊢
  rw [hgrows.number]
  exact Ref.row?_of_prefix hgrows.exprs hrow

theorem Grows.stmt? {id : StmtId} {stmt : Stmt}
    (hrow : before.stmt? id = some stmt) : after.stmt? id = some stmt := by
  unfold Program.stmt? at hrow ⊢
  rw [hgrows.number]
  exact Ref.row?_of_prefix hgrows.stmts hrow

theorem Grows.func? {id : FuncId} {func : FuncDef}
    (hrow : before.func? id = some func) : after.func? id = some func := by
  unfold Program.func? at hrow ⊢
  rw [hgrows.number]
  exact Ref.row?_of_prefix hgrows.funcs hrow

theorem Grows.stmtList? {range : StmtRange} {ids : List StmtId}
    (hrows : before.stmtList? range = some ids) :
    after.stmtList? range = some ids := by
  unfold Program.stmtList? at hrows ⊢
  rw [hgrows.number]
  exact Slice.rows?_of_prefix hgrows.stmtLists hrows

theorem Grows.entries? {range : EntryRange} {entries : List Entry}
    (hrows : before.entries? range = some entries) :
    after.entries? range = some entries := by
  unfold Program.entries? at hrows ⊢
  rw [hgrows.number]
  exact Slice.rows?_of_prefix hgrows.entries hrows

theorem Grows.params? {range : ParamRange} {params : List Param}
    (hrows : before.params? range = some params) :
    after.params? range = some params := by
  unfold Program.params? at hrows ⊢
  rw [hgrows.number]
  exact Slice.rows?_of_prefix hgrows.params hrows

theorem Grows.names? {range : NameRange} {names : List String}
    (hrows : before.names? range = some names) :
    after.names? range = some names := by
  unfold Program.names? at hrows ⊢
  rw [hgrows.number]
  exact Slice.rows?_of_prefix hgrows.names hrows

end Rows

section Adding

variable (program : Program)

theorem grows_addExpr (expr : Expr) :
    program.Grows (program.addExpr expr).2 :=
  { Grows.refl program with exprs := by simp [addExpr] }

theorem grows_addStmt (stmt : Stmt) :
    program.Grows (program.addStmt stmt).2 :=
  { Grows.refl program with stmts := by simp [addStmt] }

theorem grows_addFunc (func : FuncDef) :
    program.Grows (program.addFunc func).2 :=
  { Grows.refl program with funcs := by simp [addFunc] }

theorem grows_addStmtList (stmts : List StmtId) :
    program.Grows (program.addStmtList stmts).2 :=
  { Grows.refl program with stmtLists := by simp [addStmtList] }

theorem grows_addEntries (entries : List Entry) :
    program.Grows (program.addEntries entries).2 :=
  { Grows.refl program with entries := by simp [addEntries] }

theorem grows_addParams (params : List Param) :
    program.Grows (program.addParams params).2 :=
  { Grows.refl program with params := by simp [addParams] }

theorem grows_addNames (names : List String) :
    program.Grows (program.addNames names).2 :=
  { Grows.refl program with names := by simp [addNames] }

end Adding

/-- The tables have the rows that a reference or a range needs. -/
def HasExpr (program : Program) (id : ExprId) : Prop :=
  ∃ expr, program.expr? id = some expr

def HasStmt (program : Program) (id : StmtId) : Prop :=
  ∃ stmt, program.stmt? id = some stmt

def HasFunc (program : Program) (id : FuncId) : Prop :=
  ∃ func, program.func? id = some func

def HasNames (program : Program) (range : NameRange) : Prop :=
  ∃ names, program.names? range = some names

/-- All statements of a list are there, and so is the list. -/
def HasStmts (program : Program) (range : StmtRange) : Prop :=
  ∃ ids, program.stmtList? range = some ids ∧ ∀ id ∈ ids, program.HasStmt id

theorem HasExpr.grows {id : ExprId} (hexpr : before.HasExpr id)
    (hgrows : before.Grows after) : after.HasExpr id := by
  obtain ⟨expr, hrow⟩ := hexpr
  exact ⟨expr, hgrows.expr? hrow⟩

theorem HasStmt.grows {id : StmtId} (hstmt : before.HasStmt id)
    (hgrows : before.Grows after) : after.HasStmt id := by
  obtain ⟨stmt, hrow⟩ := hstmt
  exact ⟨stmt, hgrows.stmt? hrow⟩

theorem HasFunc.grows {id : FuncId} (hfunc : before.HasFunc id)
    (hgrows : before.Grows after) : after.HasFunc id := by
  obtain ⟨func, hrow⟩ := hfunc
  exact ⟨func, hgrows.func? hrow⟩

theorem HasNames.grows {range : NameRange} (hnames : before.HasNames range)
    (hgrows : before.Grows after) : after.HasNames range := by
  obtain ⟨names, hrows⟩ := hnames
  exact ⟨names, hgrows.names? hrows⟩

theorem HasStmts.grows {range : StmtRange} (hstmts : before.HasStmts range)
    (hgrows : before.Grows after) : after.HasStmts range := by
  obtain ⟨ids, hrows, hall⟩ := hstmts
  exact ⟨ids, hgrows.stmtList? hrows, fun id hid =>
    (hall id hid).grows hgrows⟩

end Program

/-- The expression of an entry is there. -/
def EntryKind.RefersInto (program : Program) : EntryKind → Prop
  | .item value => program.HasExpr value
  | .keyed _ value => program.HasExpr value
  | .expand _ => True

/-- The default of a parameter is there, if it has one. -/
def Param.RefersInto (program : Program) (param : Param) : Prop :=
  ∀ default, param.default = some default → program.HasExpr default

namespace Program

/-- All entries of a list are there, and so are their expressions. -/
def HasEntries (program : Program) (range : EntryRange) : Prop :=
  ∃ entries, program.entries? range = some entries ∧
    ∀ entry ∈ entries, entry.kind.RefersInto program

def HasParams (program : Program) (range : ParamRange) : Prop :=
  ∃ params, program.params? range = some params ∧
    ∀ param ∈ params, param.RefersInto program

end Program

/-- All that an expression refers to is there. -/
def ExprKind.RefersInto (program : Program) : ExprKind → Prop
  | .null | .bool _ | .int _ | .float _ | .str _ | .ident _ | .badge _ => True
  | .member receiver _ => program.HasExpr receiver
  | .index receiver key => program.HasExpr receiver ∧ program.HasExpr key
  | .array range | .args range => program.HasEntries range
  | .binary _ left right => program.HasExpr left ∧ program.HasExpr right
  | .unary _ operand => program.HasExpr operand
  | .compose left right => program.HasExpr left ∧ program.HasExpr right
  | .call callee range => program.HasExpr callee ∧ program.HasEntries range
  | .assign _ value => program.HasExpr value
  | .func definition => program.HasFunc definition

/-- All that a statement refers to is there. -/
def StmtKind.RefersInto (program : Program) : StmtKind → Prop
  | .expr value => program.HasExpr value
  | .branch condition thenBlock elseBlock =>
      program.HasExpr condition ∧ program.HasStmts thenBlock.stmts ∧
        ∀ block, elseBlock = some block → program.HasStmts block.stmts
  | .scope body => program.HasStmts body.stmts
  | .loop _ _ iterated body =>
      program.HasExpr iterated ∧ program.HasStmts body.stmts
  | .attempt body recovery =>
      program.HasStmts body.stmts ∧ program.HasNames recovery.kinds ∧
        program.HasStmts recovery.body.stmts
  | .resource acquired _ body =>
      program.HasExpr acquired ∧ program.HasStmts body.stmts
  | .assignBlock _ body => program.HasStmts body.stmts
  | .funcBlock _ definition => program.HasFunc definition
  | .inheritBlock _ _ body => program.HasStmts body.stmts
  | .return value | .raise value =>
      ∀ id, value = some id → program.HasExpr id
  | .break | .continue => True

/-- All that a function refers to is there. -/
def FuncDef.RefersInto (program : Program) (func : FuncDef) : Prop :=
  program.HasParams func.params ∧ program.HasStmts func.body.stmts

section Growing

variable {before after : Program} (hgrows : before.Grows after)

include hgrows

theorem EntryKind.RefersInto.grows {kind : EntryKind}
    (hkind : kind.RefersInto before) : kind.RefersInto after := by
  cases kind with
  | item value => exact Program.HasExpr.grows hkind hgrows
  | keyed key value => exact Program.HasExpr.grows hkind hgrows
  | expand name => trivial

theorem Program.HasEntries.grows {range : EntryRange}
    (hentries : before.HasEntries range) : after.HasEntries range := by
  obtain ⟨entries, hrows, hall⟩ := hentries
  exact ⟨entries, hgrows.entries? hrows, fun entry hentry =>
    (hall entry hentry).grows hgrows⟩

theorem ExprKind.RefersInto.grows {kind : ExprKind}
    (hkind : kind.RefersInto before) : kind.RefersInto after := by
  cases kind with
  | null | bool | int | float | str | ident | badge => trivial
  | member receiver key => exact Program.HasExpr.grows hkind hgrows
  | index receiver key => exact ⟨hkind.1.grows hgrows, hkind.2.grows hgrows⟩
  | array range => exact Program.HasEntries.grows hgrows hkind
  | args range => exact Program.HasEntries.grows hgrows hkind
  | binary op left right =>
      exact ⟨hkind.1.grows hgrows, hkind.2.grows hgrows⟩
  | unary op operand => exact Program.HasExpr.grows hkind hgrows
  | compose left right => exact ⟨hkind.1.grows hgrows, hkind.2.grows hgrows⟩
  | call callee range => exact ⟨hkind.1.grows hgrows, hkind.2.grows hgrows⟩
  | assign target value => exact Program.HasExpr.grows hkind hgrows
  | func definition => exact Program.HasFunc.grows hkind hgrows

theorem StmtKind.RefersInto.grows {kind : StmtKind}
    (hkind : kind.RefersInto before) : kind.RefersInto after := by
  cases kind with
  | expr value => exact Program.HasExpr.grows hkind hgrows
  | branch condition thenBlock elseBlock =>
      exact ⟨hkind.1.grows hgrows, hkind.2.1.grows hgrows,
        fun block hblock => (hkind.2.2 block hblock).grows hgrows⟩
  | scope body => exact Program.HasStmts.grows hkind hgrows
  | loop key value iterated body =>
      exact ⟨hkind.1.grows hgrows, hkind.2.grows hgrows⟩
  | attempt body recovery =>
      exact ⟨hkind.1.grows hgrows, hkind.2.1.grows hgrows,
        hkind.2.2.grows hgrows⟩
  | resource acquired binding body =>
      exact ⟨hkind.1.grows hgrows, hkind.2.grows hgrows⟩
  | assignBlock name body => exact Program.HasStmts.grows hkind hgrows
  | funcBlock name definition => exact Program.HasFunc.grows hkind hgrows
  | inheritBlock name parent body => exact Program.HasStmts.grows hkind hgrows
  | «return» value => exact fun id hid => (hkind id hid).grows hgrows
  | raise value => exact fun id hid => (hkind id hid).grows hgrows
  | «break» | «continue» => trivial

theorem Param.RefersInto.grows {param : Param}
    (hparam : param.RefersInto before) : param.RefersInto after :=
  fun default hdefault => (hparam default hdefault).grows hgrows

theorem Program.HasParams.grows {range : ParamRange}
    (hparams : before.HasParams range) : after.HasParams range := by
  obtain ⟨params, hrows, hall⟩ := hparams
  exact ⟨params, hgrows.params? hrows, fun param hparam =>
    (hall param hparam).grows hgrows⟩

theorem FuncDef.RefersInto.grows {func : FuncDef}
    (hfunc : func.RefersInto before) : func.RefersInto after :=
  ⟨hfunc.1.grows hgrows, hfunc.2.grows hgrows⟩

end Growing

namespace Program

/-- A program that was built row by row. -/
inductive Built : Program → Prop where
  | empty (number : Nat) : Built (.empty number)
  | addExpr {program : Program} {expr : Expr} (hbuilt : Built program)
      (hkind : expr.kind.RefersInto program) : Built (program.addExpr expr).2
  | addStmt {program : Program} {stmt : Stmt} (hbuilt : Built program)
      (hkind : stmt.kind.RefersInto program) : Built (program.addStmt stmt).2
  | addFunc {program : Program} {func : FuncDef} (hbuilt : Built program)
      (hfunc : func.RefersInto program) : Built (program.addFunc func).2
  | addStmtList {program : Program} {stmts : List StmtId}
      (hbuilt : Built program) (hstmts : ∀ id ∈ stmts, program.HasStmt id) :
      Built (program.addStmtList stmts).2
  | addEntries {program : Program} {entries : List Entry}
      (hbuilt : Built program)
      (hentries : ∀ entry ∈ entries, entry.kind.RefersInto program) :
      Built (program.addEntries entries).2
  | addParams {program : Program} {params : List Param}
      (hbuilt : Built program)
      (hparams : ∀ param ∈ params, param.RefersInto program) :
      Built (program.addParams params).2
  | addNames {program : Program} {names : List String}
      (hbuilt : Built program) : Built (program.addNames names).2

/-- The numbers of the expressions of a program are below their number. -/
theorem HasExpr.index_lt {program : Program} {id : ExprId}
    (hexpr : program.HasExpr id) : id.index < program.exprs.size := by
  obtain ⟨expr, hrow⟩ := hexpr
  exact (Array.getElem?_eq_some_iff.mp (Ref.row?_eq_some.mp hrow).2).1

theorem HasStmt.index_lt {program : Program} {id : StmtId}
    (hstmt : program.HasStmt id) : id.index < program.stmts.size := by
  obtain ⟨stmt, hrow⟩ := hstmt
  exact (Array.getElem?_eq_some_iff.mp (Ref.row?_eq_some.mp hrow).2).1

/-- The row of a table with one more row is the new one or an old one. -/
theorem row?_push {α : Type} {table : Table} {ref : Ref table}
    {number : Nat} {rows : Array α} {added row : α}
    (hrow : ref.row? number (rows.push added) = some row) :
    (ref.index = rows.size ∧ row = added) ∨
      ref.row? number rows = some row := by
  obtain ⟨hnumber, hget⟩ := Ref.row?_eq_some.mp hrow
  rw [Array.getElem?_push] at hget
  split at hget
  · next hindex => exact .inl ⟨hindex, (Option.some.inj hget).symm⟩
  · exact .inr (Ref.row?_eq_some.mpr ⟨hnumber, hget⟩)

/-- The program was once at a stage at which some row was next to be added,
and all that the row refers to was there. -/
def AddedAt (program : Program) (isNext refersInto : Program → Prop) : Prop :=
  ∃ older, older.Built ∧ older.Grows program ∧ isNext older ∧ refersInto older

theorem AddedAt.grows {before after : Program}
    {isNext refersInto : Program → Prop}
    (hadded : before.AddedAt isNext refersInto)
    (hgrows : before.Grows after) : after.AddedAt isNext refersInto := by
  obtain ⟨older, hbuilt, hold, hnext⟩ := hadded
  exact ⟨older, hbuilt, hold.trans hgrows, hnext⟩

/-- An expression refers into the program as it was when the expression was
added. -/
theorem Built.expr_addedAt {program : Program} (hbuilt : program.Built)
    {id : ExprId} {expr : Expr} (hrow : program.expr? id = some expr) :
    program.AddedAt (fun older => older.exprs.size = id.index)
      expr.kind.RefersInto := by
  induction hbuilt with
  | empty number => simp [expr?, Program.empty, Ref.row?] at hrow
  | @addExpr program added hbuilt hkind ih =>
      rcases row?_push hrow with ⟨hindex, rfl⟩ | hold
      · exact ⟨program, hbuilt, program.grows_addExpr _, hindex.symm, hkind⟩
      · exact (ih hold).grows (grows_addExpr _ _)
  | addStmt _ _ ih => exact (ih hrow).grows (grows_addStmt _ _)
  | addFunc _ _ ih => exact (ih hrow).grows (grows_addFunc _ _)
  | addStmtList _ _ ih => exact (ih hrow).grows (grows_addStmtList _ _)
  | addEntries _ _ ih => exact (ih hrow).grows (grows_addEntries _ _)
  | addParams _ _ ih => exact (ih hrow).grows (grows_addParams _ _)
  | addNames _ ih => exact (ih hrow).grows (grows_addNames _ _)

theorem Built.stmt_addedAt {program : Program} (hbuilt : program.Built)
    {id : StmtId} {stmt : Stmt} (hrow : program.stmt? id = some stmt) :
    program.AddedAt (fun older => older.stmts.size = id.index)
      stmt.kind.RefersInto := by
  induction hbuilt with
  | empty number => simp [stmt?, Program.empty, Ref.row?] at hrow
  | addExpr _ _ ih => exact (ih hrow).grows (grows_addExpr _ _)
  | @addStmt program added hbuilt hkind ih =>
      rcases row?_push hrow with ⟨hindex, rfl⟩ | hold
      · exact ⟨program, hbuilt, program.grows_addStmt _, hindex.symm, hkind⟩
      · exact (ih hold).grows (grows_addStmt _ _)
  | addFunc _ _ ih => exact (ih hrow).grows (grows_addFunc _ _)
  | addStmtList _ _ ih => exact (ih hrow).grows (grows_addStmtList _ _)
  | addEntries _ _ ih => exact (ih hrow).grows (grows_addEntries _ _)
  | addParams _ _ ih => exact (ih hrow).grows (grows_addParams _ _)
  | addNames _ ih => exact (ih hrow).grows (grows_addNames _ _)

theorem Built.func_addedAt {program : Program} (hbuilt : program.Built)
    {id : FuncId} {func : FuncDef} (hrow : program.func? id = some func) :
    program.AddedAt (fun older => older.funcs.size = id.index)
      func.RefersInto := by
  induction hbuilt with
  | empty number => simp [func?, Program.empty, Ref.row?] at hrow
  | addExpr _ _ ih => exact (ih hrow).grows (grows_addExpr _ _)
  | addStmt _ _ ih => exact (ih hrow).grows (grows_addStmt _ _)
  | @addFunc program added hbuilt hfunc ih =>
      rcases row?_push hrow with ⟨hindex, rfl⟩ | hold
      · exact ⟨program, hbuilt, program.grows_addFunc _, hindex.symm, hfunc⟩
      · exact (ih hold).grows (grows_addFunc _ _)
  | addStmtList _ _ ih => exact (ih hrow).grows (grows_addStmtList _ _)
  | addEntries _ _ ih => exact (ih hrow).grows (grows_addEntries _ _)
  | addParams _ _ ih => exact (ih hrow).grows (grows_addParams _ _)
  | addNames _ ih => exact (ih hrow).grows (grows_addNames _ _)

/-- What an expression refers to is still there. -/
theorem Built.expr_refersInto {program : Program} (hbuilt : program.Built)
    {id : ExprId} {expr : Expr} (hrow : program.expr? id = some expr) :
    expr.kind.RefersInto program := by
  obtain ⟨_, _, hgrows, _, hkind⟩ := hbuilt.expr_addedAt hrow
  exact hkind.grows hgrows

theorem Built.stmt_refersInto {program : Program} (hbuilt : program.Built)
    {id : StmtId} {stmt : Stmt} (hrow : program.stmt? id = some stmt) :
    stmt.kind.RefersInto program := by
  obtain ⟨_, _, hgrows, _, hkind⟩ := hbuilt.stmt_addedAt hrow
  exact hkind.grows hgrows

/-- What a function refers to is still there. -/
theorem Built.func_refersInto {program : Program} (hbuilt : program.Built)
    {id : FuncId} {func : FuncDef} (hrow : program.func? id = some func) :
    func.RefersInto program := by
  obtain ⟨_, _, hgrows, _, hfunc⟩ := hbuilt.func_addedAt hrow
  exact hfunc.grows hgrows

end Program

end ChainScript
