import ChainScript.Key
import ChainScript.Span

/-
The syntax of a program, laid out in flat tables.

A node refers to its children by row numbers, and to lists of children by
ranges of rows.  Each reference carries the number of the program whose table
it points into, so that a reference is never resolved in another program.
-/

namespace ChainScript

/-- The tables of a program. -/
inductive Table where
  | exprs
  | stmts
  | stmtLists
  | entries
  | params
  | names
  | funcs
deriving Repr, DecidableEq

/-- One row of a table. -/
structure Ref (table : Table) where
  program : Nat
  index : Nat
deriving Repr, DecidableEq

/-- Consecutive rows of a table. -/
structure Slice (table : Table) where
  program : Nat
  start : Nat
  length : Nat
deriving Repr, DecidableEq

abbrev ExprId := Ref .exprs
abbrev StmtId := Ref .stmts
abbrev FuncId := Ref .funcs
abbrev StmtRange := Slice .stmtLists
abbrev EntryRange := Slice .entries
abbrev ParamRange := Slice .params
abbrev NameRange := Slice .names

/-- Binary operators.  The two logical ones do not always evaluate their right
operand. -/
inductive BinaryOp where
  | add
  | sub
  | mul
  | div
  | mod
  | equal
  | notEqual
  | less
  | lessEqual
  | greater
  | greaterEqual
  | and
  | or
deriving Repr, DecidableEq

namespace BinaryOp

def symbol : BinaryOp → String
  | .add => "+"
  | .sub => "-"
  | .mul => "*"
  | .div => "/"
  | .mod => "%"
  | .equal => "=="
  | .notEqual => "!="
  | .less => "<"
  | .lessEqual => "<="
  | .greater => ">"
  | .greaterEqual => ">="
  | .and => "and"
  | .or => "or"

def all : List BinaryOp :=
  [.add, .sub, .mul, .div, .mod, .equal, .notEqual, .less, .lessEqual,
    .greater, .greaterEqual, .and, .or]

end BinaryOp

/-- Unary operators. -/
inductive UnaryOp where
  | neg
  | plus
  | not
deriving Repr, DecidableEq

namespace UnaryOp

def symbol : UnaryOp → String
  | .neg => "-"
  | .plus => "+"
  | .not => "not"

def all : List UnaryOp :=
  [.neg, .plus, .not]

end UnaryOp

/-- The forms of expressions. -/
inductive ExprKind where
  | null
  | bool (value : Bool)
  | int (value : Int64)
  | float (value : Float)
  | str (text : String)
  /-- A name in scope. -/
  | ident (name : String)
  /-- A key in scope, written `@key`. -/
  | badge (key : Key)
  | member (receiver : ExprId) (key : Key)
  | index (receiver key : ExprId)
  | array (entries : EntryRange)
  /-- An argument container, written in parentheses. -/
  | args (entries : EntryRange)
  | binary (op : BinaryOp) (left right : ExprId)
  | unary (op : UnaryOp) (operand : ExprId)
  /-- Composition, written `left & right`. -/
  | compose (left right : ExprId)
  | call (callee : ExprId) (args : EntryRange)
  | assign (target : Key) (value : ExprId)
  | func (definition : FuncId)
deriving Repr, DecidableEq

/-- An expression and its place. -/
structure Expr where
  kind : ExprKind
  span : Span
deriving Repr, DecidableEq

/-- The forms of entries of array literals and argument lists. -/
inductive EntryKind where
  /-- An entry under the next free index. -/
  | item (value : ExprId)
  | keyed (key : Key) (value : ExprId)
  /-- The entries of a named array. -/
  | expand (name : String)
deriving Repr, DecidableEq

structure Entry where
  kind : EntryKind
  span : Span
deriving Repr, DecidableEq

/-- A braced list of statements, run in a frame of its own. -/
structure Block where
  stmts : StmtRange
  span : Span
deriving Repr, DecidableEq

/-- The recovering part of a `try` statement.  No kinds means all kinds. -/
structure CatchClause where
  binding : Option String
  kinds : NameRange
  body : Block
deriving Repr, DecidableEq

/-- The forms of statements. -/
inductive StmtKind where
  | expr (value : ExprId)
  | branch (condition : ExprId) (thenBlock : Block) (elseBlock : Option Block)
  | scope (body : Block)
  | loop (key : Option String) (value : String) (iterated : ExprId)
      (body : Block)
  | attempt (body : Block) (recovery : CatchClause)
  | resource (acquired : ExprId) (binding : Option String) (body : Block)
  /-- A name bound to the value of a block. -/
  | assignBlock (name : String) (body : Block)
  | funcBlock (name : String) (definition : FuncId)
  | inheritBlock (name parent : String) (body : Block)
  | return (value : Option ExprId)
  | break
  | continue
  | raise (value : Option ExprId)
deriving Repr, DecidableEq

structure Stmt where
  kind : StmtKind
  span : Span
deriving Repr, DecidableEq

/-- A formal parameter.  The default is evaluated in the frame of the call; a
rest parameter collects the arguments left over. -/
structure Param where
  name : String
  default : Option ExprId
  rest : Bool
  span : Span
deriving Repr, DecidableEq

/-- A function definition; the name of an anonymous function is empty. -/
structure FuncDef where
  name : String
  params : ParamRange
  body : Block
  span : Span
deriving Repr, DecidableEq

/-- The statements of a whole script. -/
structure Script where
  body : StmtRange
  span : Span
deriving Repr, DecidableEq

/-- The tables of one program. -/
structure Program where
  number : Nat
  exprs : Array Expr := #[]
  stmts : Array Stmt := #[]
  stmtLists : Array StmtId := #[]
  entries : Array Entry := #[]
  params : Array Param := #[]
  names : Array String := #[]
  funcs : Array FuncDef := #[]
deriving Repr, DecidableEq

/-- The row that a reference points to. -/
def Ref.row? {α : Type} {table : Table} (ref : Ref table) (program : Nat)
    (rows : Array α) : Option α :=
  if ref.program = program then rows[ref.index]? else none

/-- The rows that a range covers, all of which must exist. -/
def Slice.rows? {α : Type} {table : Table} (slice : Slice table)
    (program : Nat) (rows : Array α) : Option (List α) :=
  if slice.program = program ∧ slice.start + slice.length ≤ rows.size then
    some (rows.extract slice.start (slice.start + slice.length)).toList
  else none

namespace Program

/-- The program with a given number and no nodes. -/
def empty (number : Nat) : Program :=
  { number }

variable (program : Program)

def expr? (id : ExprId) : Option Expr :=
  id.row? program.number program.exprs

def stmt? (id : StmtId) : Option Stmt :=
  id.row? program.number program.stmts

def func? (id : FuncId) : Option FuncDef :=
  id.row? program.number program.funcs

def stmtList? (range : StmtRange) : Option (List StmtId) :=
  range.rows? program.number program.stmtLists

def entries? (range : EntryRange) : Option (List Entry) :=
  range.rows? program.number program.entries

def params? (range : ParamRange) : Option (List Param) :=
  range.rows? program.number program.params

def names? (range : NameRange) : Option (List String) :=
  range.rows? program.number program.names

/-- Add an expression, whose children must be there already. -/
def addExpr (expr : Expr) : ExprId × Program :=
  (⟨program.number, program.exprs.size⟩,
    { program with exprs := program.exprs.push expr })

def addStmt (stmt : Stmt) : StmtId × Program :=
  (⟨program.number, program.stmts.size⟩,
    { program with stmts := program.stmts.push stmt })

def addFunc (func : FuncDef) : FuncId × Program :=
  (⟨program.number, program.funcs.size⟩,
    { program with funcs := program.funcs.push func })

/-- Add a list of statements, which must be there already, as one range. -/
def addStmtList (stmts : List StmtId) : StmtRange × Program :=
  (⟨program.number, program.stmtLists.size, stmts.length⟩,
    { program with stmtLists := program.stmtLists ++ stmts.toArray })

def addEntries (entries : List Entry) : EntryRange × Program :=
  (⟨program.number, program.entries.size, entries.length⟩,
    { program with entries := program.entries ++ entries.toArray })

def addParams (params : List Param) : ParamRange × Program :=
  (⟨program.number, program.params.size, params.length⟩,
    { program with params := program.params ++ params.toArray })

def addNames (names : List String) : NameRange × Program :=
  (⟨program.number, program.names.size, names.length⟩,
    { program with names := program.names ++ names.toArray })

/-- The range without names. -/
def noNames : NameRange :=
  ⟨program.number, 0, 0⟩

/-- Number of statements and expressions. -/
def size : Nat :=
  program.exprs.size + program.stmts.size

theorem expr?_addExpr (expr : Expr) :
    (program.addExpr expr).2.expr? (program.addExpr expr).1 = some expr := by
  simp [addExpr, expr?, Ref.row?]

theorem stmt?_addStmt (stmt : Stmt) :
    (program.addStmt stmt).2.stmt? (program.addStmt stmt).1 = some stmt := by
  simp [addStmt, stmt?, Ref.row?]

theorem func?_addFunc (func : FuncDef) :
    (program.addFunc func).2.func? (program.addFunc func).1 = some func := by
  simp [addFunc, func?, Ref.row?]

theorem names?_noNames : program.names? program.noNames = some [] := by
  simp [names?, noNames, Slice.rows?]

end Program

private theorem Slice.rows?_append {α : Type} {table : Table} (program : Nat)
    (rows : Array α) (added : List α) :
    (@Slice.mk table program rows.size added.length).rows? program
      (rows ++ added.toArray) = some added := by
  simp [Slice.rows?]

namespace Program

variable (program : Program)

theorem stmtList?_addStmtList (stmts : List StmtId) :
    (program.addStmtList stmts).2.stmtList? (program.addStmtList stmts).1 =
      some stmts :=
  Slice.rows?_append program.number program.stmtLists stmts

theorem entries?_addEntries (entries : List Entry) :
    (program.addEntries entries).2.entries? (program.addEntries entries).1 =
      some entries :=
  Slice.rows?_append program.number program.entries entries

theorem params?_addParams (params : List Param) :
    (program.addParams params).2.params? (program.addParams params).1 =
      some params :=
  Slice.rows?_append program.number program.params params

theorem names?_addNames (names : List String) :
    (program.addNames names).2.names? (program.addNames names).1 =
      some names :=
  Slice.rows?_append program.number program.names names

end Program

end ChainScript
