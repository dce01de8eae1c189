import ChainScript.Interpreter
import ChainScript.Proofs.Frames

/-
What code may do to a machine, given what its parts may do.

Code runs either in the scope that it finds or in a scope of its own, and each
of the two has a relation between the machines before and after.  The lemmas
about single forms hold for every pair of relations that suits the way in which
scopes are made and left, so a new pair needs no second look at the forms.
-/

namespace ChainScript

open Step Machine

variable {World α : Type}

/-- What code may do to a machine: one thing after another, and changes of the
heap that keep all frames.  At most it writes the innermost frame of the scope
that it finds. -/
class Allowance (rel : Machine World → Machine World → Prop) : Prop where
  tidied {before after : Machine World} :
    rel before after → Tidied AnyTwo before after
  trans {first second third : Machine World} :
    rel first second → rel second third → rel first third
  made (machine : Machine World) {heap : Heap} :
    machine.heap.KeptBut none heap → rel machine { machine with heap }

section Primitives

variable {rel : Machine World → Machine World → Prop} [Allowance rel]

instance : Std.Refl rel :=
  ⟨fun machine => Allowance.made machine (.refl machine.heap)⟩

instance : Trans rel rel rel :=
  ⟨Allowance.trans⟩

/-- Code in a scope gives the scope, the running program and the active calls
back. -/
theorem restored_of_moves {body : Run World α} (hbody : Moves rel body)
    {machine : Machine World} (hscope : machine.env ≠ []) :
    machine.Restored (body machine).2 :=
  (Allowance.tidied (hbody machine) hscope).restored

namespace Run

theorem still_fault (cause : Cause) : Still (fault cause : Run World α) :=
  still_fail _

theorem still_faultAt (span : Span) (cause : Cause) :
    Still (faultAt span cause : Run World α) :=
  still_fail _

theorem still_signal (way : Signal) : Still (signal way : Run World α) :=
  still_fail _

theorem still_ofExcept (result : Except Cause α) :
    Still (ofExcept result : Run World α) := by
  cases result with
  | ok value => exact still_pure value
  | error cause => exact still_fault cause

theorem still_ofOutcome (outcome : Outcome Cause α) :
    Still (Run.ofOutcome outcome : Run World α) := by
  cases outcome with
  | ok value => exact still_pure value
  | error cause => exact still_fault cause
  | halted reason => exact still_halt reason

theorem still_lookup? (key : Key) :
    Still (lookup? key : Run World (Option Value)) :=
  still_read _

theorem moves_program : Moves rel (program : Run World Program) :=
  (still_read _).moves.bind fun _ => (still_found _).moves

theorem moves_lookup (key : Key) :
    Moves rel (lookup key : Run World Value) := by
  refine (still_lookup? key).moves.bind fun found => ?_
  cases found with
  | some value => exact (still_pure value).moves
  | none => exact (still_fault _).moves

theorem moves_textOf (value : Value) :
    Moves rel (textOf value : Run World String) :=
  (still_read _).moves.bind fun _ => (Step.still_ofOutcome _).moves

/-- Changing the heap without touching a frame that is there. -/
theorem moves_withHeap {f : Heap → α × Heap}
    (hkept : ∀ heap : Heap, heap.KeptBut none (f heap).2) :
    Moves rel (withHeap f : Run World α) :=
  fun machine => Allowance.made machine (hkept machine.heap)

theorem moves_newArray (content : Container Value) :
    Moves rel (newArray content : Run World Value) :=
  moves_withHeap fun heap => heap.keptBut_addArray content

theorem moves_newNative (name : String) :
    Moves rel (newNative name : Run World Value) :=
  moves_withHeap fun heap => heap.keptBut_addFunction _

theorem moves_newClosure (name : String) (definition : FuncId) :
    Moves rel (newClosure name definition : Run World Value) :=
  fun machine => Allowance.made machine (machine.heap.keptBut_addFunction _)

theorem moves_compose (left right : Value) :
    Moves rel (compose left right : Run World (Except Cause Value)) := by
  intro machine
  unfold compose
  rw [bind_apply]
  simp only [readHeap, read_apply]
  cases hcompose : machine.heap.compose left right with
  | ok result =>
      exact Allowance.made machine (machine.heap.keptBut_compose hcompose)
  | error cause => exact Std.Refl.refl machine

end Run

end Primitives

namespace Run

variable {body : Run World α}

theorem moves_located {rel : Machine World → Machine World → Prop}
    (span : Span) (hbody : Moves rel body) : Moves rel (located span body) :=
  hbody.mapError

theorem moves_catchReturn {rel : Machine World → Machine World → Prop}
    {body : Run World Value} (hbody : Moves rel body) :
    Moves rel (catchReturn body) := by
  intro machine
  rw [snd_catchReturn]
  exact hbody machine

end Run

/-- What code may do in the scope that it finds, and what code may do that has a
scope of its own.  The latter may do less. -/
class Confining (inner outer : Machine World → Machine World → Prop) :
    Prop where
  weaken {before after : Machine World} :
    outer before after → inner before after

/-- Expressions and statements run in the scope that they find, and calls have a
scope of their own. -/
structure Worker.Keeps (inner outer : Machine World → Machine World → Prop)
    (worker : Worker World) : Prop where
  expr : ∀ id, Moves inner (worker (.expr id))
  stmt : ∀ id, Moves inner (worker (.stmt id))
  call : ∀ function args site,
    Moves outer (worker (.call function args site))

/-- Work that is abandoned at once does nothing. -/
theorem Worker.keeps_halt {inner outer : Machine World → Machine World → Prop}
    [Std.Refl inner] [Std.Refl outer] (reason : Halt) :
    Worker.Keeps inner outer (fun _ => halt reason : Worker World) where
  expr _ := (still_halt reason).moves
  stmt _ := (still_halt reason).moves
  call _ _ _ := (still_halt reason).moves

/-- The key that an expression binds when it ends with a value. -/
def ExprKind.binds? : ExprKind → Option Key
  | .assign target _ => some target
  | _ => none

/-- The name that a statement binds when it ends with a value. -/
def StmtKind.binds? : StmtKind → Option String
  | .assignBlock name _ | .funcBlock name _ | .inheritBlock name _ _ =>
      some name
  | _ => none

namespace Worker

section Parts

variable {rel : Machine World → Machine World → Prop} [Allowance rel]

theorem moves_memberOf (receiver : Value) (key : Key) :
    Moves rel (memberOf receiver key : Run World Value) := by
  cases receiver with
  | array chain =>
      refine (still_read _).moves.bind fun found => ?_
      cases found with
      | some value => exact (still_pure value).moves
      | none => exact (Run.still_fault _).moves
  | _ => exact (Run.still_fault _).moves

theorem moves_hook? (resource : Value) (label : String) :
    Moves rel (hook? resource label : Run World (Option FunctionId)) := by
  cases resource with
  | array chain =>
      refine (still_read _).moves.bind fun found => ?_
      split <;> exact (still_pure _).moves
  | _ => exact (still_pure _).moves

theorem moves_caughtValue (cause : Cause) :
    Moves rel (caughtValue cause : Run World Value) := by
  unfold caughtValue
  split
  · exact (still_pure _).moves
  · exact Run.moves_newArray _

theorem moves_recoveryBindings (binding : Option String) (cause : Cause) :
    Moves rel
      (recoveryBindings binding cause : Run World (Container Value)) := by
  cases binding with
  | some name =>
      exact (moves_caughtValue cause).bind fun _ => (still_pure _).moves
  | none => exact (still_pure _).moves

theorem moves_callFrame (content : Container Value)
    (supplied : List (String × Supplied)) :
    Moves rel
      (callFrame content supplied : Run World (Container Value)) := by
  induction supplied generalizing content with
  | nil => exact (still_pure content).moves
  | cons first rest ih =>
      obtain ⟨name, value | entries⟩ := first
      · exact ih _
      · exact (Run.moves_newArray entries).bind fun value => ih _

end Parts

section Expressions

variable {inner outer : Machine World → Machine World → Prop}
  [Allowance inner] {worker : Worker World}
  (hworker : worker.Keeps inner outer)

include hworker

theorem moves_optional (expr : Option ExprId) :
    Moves inner (worker.optional expr) := by
  cases expr with
  | none => exact (still_pure _).moves
  | some id => exact hworker.expr id

theorem moves_stmtsFrom (last : Value) (ids : List StmtId) :
    Moves inner (worker.stmtsFrom last ids) := by
  induction ids generalizing last with
  | nil => exact (still_pure last).moves
  | cons id rest ih => exact (hworker.stmt id).bind fun value => ih value

theorem moves_stmts (range : StmtRange) : Moves inner (worker.stmts range) :=
  Run.moves_program.bind fun _ =>
    (still_found _).moves.bind fun ids => moves_stmtsFrom hworker .null ids

theorem moves_entry (content : Container Value) (entry : Entry) :
    Moves inner (worker.entry content entry) := by
  unfold Worker.entry
  cases entry.kind with
  | item value =>
      exact (hworker.expr value).bind fun _ => (still_pure _).moves
  | keyed key value =>
      exact (hworker.expr value).bind fun _ => (still_pure _).moves
  | expand name =>
      refine Moves.bind (Run.moves_located entry.span (Run.moves_lookup _))
        fun value => ?_
      cases value with
      | array chain =>
          exact (still_read _).moves.bind fun _ => (still_pure _).moves
      | _ => exact (Run.still_faultAt _ _).moves

theorem moves_entriesFrom (content : Container Value) (entries : List Entry) :
    Moves inner (worker.entriesFrom content entries) := by
  induction entries generalizing content with
  | nil => exact (still_pure content).moves
  | cons first rest ih =>
      exact (moves_entry hworker content first).bind fun content => ih content

theorem moves_entries (range : EntryRange) :
    Moves inner (worker.entries range) :=
  Run.moves_program.bind fun _ =>
    (still_found _).moves.bind fun entries =>
      moves_entriesFrom hworker .empty entries

theorem moves_logical (op : BinaryOp) (left right : ExprId) :
    Moves inner (worker.logical op left right) := by
  apply (hworker.expr left).bind
  intro value
  refine (Run.still_ofExcept _).moves.bind fun first => ?_
  split
  · exact (still_pure _).moves
  · exact (hworker.expr right).bind fun _ =>
      (Run.still_ofExcept _).moves.bind fun _ => (still_pure _).moves

theorem moves_binary (op : BinaryOp) (left right : ExprId) :
    Moves inner (worker.binary op left right) := by
  unfold binary
  split
  · exact moves_logical hworker _ left right
  · exact moves_logical hworker _ left right
  · exact (hworker.expr left).bind fun _ => (hworker.expr right).bind fun _ =>
      (still_read _).moves.bind fun _ => (Run.still_ofOutcome _).moves

theorem moves_compose (left right : ExprId) :
    Moves inner (worker.compose left right) :=
  (hworker.expr left).bind fun first => (hworker.expr right).bind fun second =>
    (Run.moves_compose first second).bind fun _ =>
      (Run.still_ofExcept _).moves

variable [Confining inner outer]

omit hworker [Allowance inner] in
theorem moves_of_outer {body : Run World α} (hbody : Moves outer body) :
    Moves inner body :=
  hbody.mono fun _ _ => Confining.weaken

theorem moves_callExpr (callee : ExprId) (args : EntryRange) (span : Span) :
    Moves inner (worker.callExpr callee args span) := by
  apply (hworker.expr callee).bind
  intro function
  apply (moves_entries hworker args).bind
  intro args
  cases function with
  | function id => exact moves_of_outer (hworker.call id args (some span))
  | _ => exact (Run.still_fault _).moves

theorem moves_plainExpr (span : Span) {kind : ExprKind}
    (hbinds : kind.binds? = none) :
    Moves inner (worker.exprKind span kind) := by
  cases kind with
  | null | bool | int | float | str => exact (still_pure _).moves
  | ident name => exact Run.moves_lookup _
  | badge key => exact Run.moves_lookup key
  | member receiver key =>
      exact (hworker.expr receiver).bind fun value => moves_memberOf value key
  | index receiver key =>
      exact (hworker.expr receiver).bind fun value =>
        (hworker.expr key).bind fun _ =>
          (Run.still_ofExcept _).moves.bind fun key => moves_memberOf value key
  | array range | args range =>
      exact (moves_entries hworker range).bind fun content =>
        Run.moves_newArray content
  | binary op left right => exact moves_binary hworker op left right
  | unary op operand =>
      exact (hworker.expr operand).bind fun _ =>
        (Run.still_ofExcept _).moves
  | compose left right => exact moves_compose hworker left right
  | call callee args => exact moves_callExpr hworker callee args span
  | assign target value => cases hbinds
  | func definition =>
      exact Run.moves_program.bind fun _ =>
        (still_found _).moves.bind fun func =>
          Run.moves_newClosure func.name definition

end Expressions

section Blocks

variable {inner outer : Machine World → Machine World → Prop}
  {worker : Worker World} (hworker : worker.Keeps inner outer)
  (hblocks : ∀ content block, Moves outer (worker.blockWith content block))

section Outer

variable [Allowance outer]

include hworker in
theorem moves_releasing (release : Option FunctionId) (span : Span)
    {body : Run World Value} (hbody : Moves outer body) :
    Moves outer (worker.releasing release span body) := by
  cases release with
  | none => exact hbody
  | some id =>
      apply hbody.attempt.bind
      intro result
      apply (hworker.call id .empty (some span)).attempt.bind
      intro released
      split
      · exact (still_pure _).moves
      · exact (still_fail _).moves
      · exact (still_fail _).moves

include hblocks

theorem moves_rounds (key : Option String) (value : String) (body : Block)
    (entries : List (Key × Value)) :
    Moves outer (worker.rounds key value body entries) := by
  induction entries with
  | nil => exact (still_pure _).moves
  | cons entry rest ih =>
      refine (Run.still_ofExcept _).moves.bind fun content => ?_
      apply (hblocks content body).attempt.bind
      intro result
      cases result with
      | ok value => exact ih
      | error exit =>
          dsimp only
          split
          · exact (still_pure _).moves
          · exact ih
          · exact (still_fail exit).moves

theorem moves_attempt (body : Block) (recovery : CatchClause) :
    Moves outer (worker.attempt body recovery) := by
  apply (hblocks .empty body).attempt.bind
  intro result
  cases result with
  | ok value => exact (still_pure value).moves
  | error exit =>
      refine Moves.bind Run.moves_program fun _ => ?_
      refine (still_found _).moves.bind fun kinds => ?_
      split
      · exact (still_fail exit).moves
      · split
        · exact (moves_recoveryBindings _ _).bind fun content =>
            hblocks content recovery.body
        · exact (still_fail exit).moves

end Outer

variable [Allowance inner] [Confining inner outer]

include hworker hblocks

theorem moves_branch (condition : ExprId) (thenBlock : Block)
    (elseBlock : Option Block) :
    Moves inner (worker.branch condition thenBlock elseBlock) := by
  apply (hworker.expr condition).bind
  intro value
  split
  · exact Run.moves_program.bind fun _ =>
      (still_found _).moves.bind fun _ => (Run.still_faultAt _ _).moves
  · exact moves_of_outer (hblocks .empty thenBlock)
  · cases elseBlock with
    | some block => exact moves_of_outer (hblocks .empty block)
    | none => exact (still_pure _).moves

theorem moves_operand (kind : StmtKind) :
    Moves inner (worker.operand kind) := by
  cases kind with
  | assignBlock name body => exact moves_of_outer (hblocks .empty body)
  | «return» value | raise value => exact moves_optional hworker value
  | _ => exact (still_pure _).moves

variable [Allowance outer]

theorem moves_loop (key : Option String) (value : String) (iterated : ExprId)
    (body : Block) : Moves inner (worker.loop key value iterated body) := by
  apply (hworker.expr iterated).bind
  intro array
  cases array with
  | array chain =>
      exact (still_read _).moves.bind fun content =>
        moves_of_outer (moves_rounds hblocks key value body content.entries)
  | _ =>
      exact Run.moves_program.bind fun _ =>
        (still_found _).moves.bind fun _ => (Run.still_faultAt _ _).moves

theorem moves_resource (acquired : ExprId) (binding : Option String)
    (body : Block) (span : Span) :
    Moves inner (worker.resource acquired binding body span) := by
  apply (hworker.expr acquired).bind
  intro resource
  refine moves_of_outer (show Moves outer _ from ?_)
  refine Moves.bind (moves_hook? resource "enter") fun enter => ?_
  refine Moves.bind (moves_hook? resource "release") fun release => ?_
  refine Moves.bind ?_ fun bound =>
    moves_releasing hworker release span (hblocks _ body)
  cases enter with
  | some id => exact hworker.call id .empty (some span)
  | none => exact (still_pure resource).moves

theorem moves_plainStmt (span : Span) (operand : Value) {kind : StmtKind}
    (hbinds : kind.binds? = none) :
    Moves inner (worker.stmtKind span operand kind) := by
  cases kind with
  | expr value => exact hworker.expr value
  | branch condition thenBlock elseBlock =>
      exact moves_branch hworker hblocks condition thenBlock elseBlock
  | scope body => exact moves_of_outer (hblocks .empty body)
  | loop key value iterated body =>
      exact moves_loop hworker hblocks key value iterated body
  | attempt body recovery =>
      exact moves_of_outer (moves_attempt hblocks body recovery)
  | resource acquired binding body =>
      exact moves_resource hworker hblocks acquired binding body span
  | assignBlock name body => cases hbinds
  | funcBlock name definition => cases hbinds
  | inheritBlock name parent body => cases hbinds
  | «return» value => exact (Run.still_signal _).moves
  | «break» => exact (Run.still_signal _).moves
  | «continue» => exact (Run.still_signal _).moves
  | raise value =>
      exact (Run.moves_textOf operand).bind fun _ =>
        (Run.still_fault _).moves

end Blocks

end Worker

/-- Relations that suit the way in which scopes are made and left.  The
innermost frame of a new scope is one that nobody else has yet. -/
class Discipline (inner outer : Machine World → Machine World → Prop) : Prop
    extends Confining inner outer where
  bind (key : Key) (value : Value) :
    Moves inner (Run.bind key value : Run World Unit)
  inScope {α : Type} {body : Run World α} (hbody : Moves inner body)
    (machine : Machine World) {heap : Heap} (number : Nat) (link : Link)
    (chain : Chain) (hmade : machine.heap.KeptBut none heap)
    (hfresh : machine.heap.frames.size ≤ link.frame)
    (hthere : link.frame < heap.frames.size) :
    let started :=
      { machine with heap, program := number, env := link :: chain }
    outer machine { (body started).2 with
      program := machine.program, env := machine.env }
  inCall {α : Type} {body : Run World α} (hbody : Moves outer body)
    (call : ActiveCall) : Moves outer (Run.inCall call body)

namespace Heap

variable (heap : Heap) (base outer : Chain)

/-- The scope of an inheriting block: a new frame on top of an array, with the
scope around the block behind it. -/
def ownScope : Chain × Heap :=
  let stacked := (heap.addFrame .empty).2.stack base outer
  stacked.2.push heap.frames.size stacked.1

theorem keptBut_ownScope : heap.KeptBut none (heap.ownScope base outer).2 :=
  ((heap.keptBut_addFrame .empty).trans (keptBut_stack _ base outer)).trans
    (keptBut_push _ _ _)

theorem size_lt_ownScope :
    heap.frames.size < (heap.ownScope base outer).2.frames.size :=
  Nat.lt_of_lt_of_le (by simp [addFrame])
    (keptBut_stack (heap.addFrame .empty).2 base outer).size_le

theorem frame_ownScope :
    (heap.ownScope base outer).2.frame heap.frames.size = .empty := by
  unfold ownScope
  rw [frame_push, frame_stack]
  exact heap.frame_addFrame_self .empty

end Heap

theorem Worker.ownFrame_apply (worker : Worker World) (base : Chain)
    (body : Block) (machine : Machine World) :
    worker.ownFrame base body machine =
      let scope := machine.heap.ownScope base machine.env
      let ended := worker.stmts body.stmts
        { machine with env := scope.1, heap := scope.2 }
      (ended.1.map fun _ => machine.heap.frames.size,
        { ended.2 with env := machine.env }) :=
  bind_pure_apply (Run.inChain _ (worker.stmts body.stmts)) _
    { machine with heap := (machine.heap.ownScope base machine.env).2 }

section Disciplines

variable {inner outer : Machine World → Machine World → Prop}
  [Allowance inner] [Discipline inner outer]

namespace Run

/-- Code in a scope with a frame that was made for it. -/
theorem outer_inChain {body : Run World α} (hbody : Moves inner body)
    (machine : Machine World) {heap : Heap} (link : Link) (chain : Chain)
    (hmade : machine.heap.KeptBut none heap)
    (hfresh : machine.heap.frames.size ≤ link.frame)
    (hthere : link.frame < heap.frames.size) :
    let result := body { machine with heap, env := link :: chain }
    outer machine { result.2 with env := machine.env } := by
  intro result
  have houter : outer machine _ := Discipline.inScope hbody machine
    machine.program link chain hmade hfresh hthere
  have hprogram : result.2.program = machine.program :=
    (restored_of_moves hbody (List.cons_ne_nil link chain)).program
  change outer machine { result.2 with
    program := machine.program, env := machine.env } at houter
  clear_value result
  rwa [← hprogram] at houter

/-- Code in a new innermost frame. -/
theorem moves_inFrame (content : Container Value) {body : Run World α}
    (hbody : Moves inner body) : Moves outer (inFrame content body) := by
  intro machine
  have houter : outer machine _ := outer_inChain hbody machine
    ⟨machine.heap.nextLink, machine.heap.frames.size⟩ machine.env
    (machine.heap.keptBut_pushNew content machine.env) (Nat.le_refl _)
    (by simp [Heap.pushNew, Heap.addFrame, Heap.push])
  let started : Machine World := { machine with
    env := (machine.heap.pushNew content machine.env).1
    heap := (machine.heap.pushNew content machine.env).2 }
  have henv : (body started).2.env.tail = machine.env :=
    congrArg List.tail
      (restored_of_moves hbody (List.cons_ne_nil _ machine.env)).env
  rw [inFrame_apply]
  change outer machine { (body started).2 with env := machine.env } at houter
  rwa [← henv] at houter

omit [Allowance inner] in
/-- The body of a function runs in the scope that the function has captured,
with a frame for the call. -/
theorem outer_inProgram {body : Run World α} (hbody : Moves inner body)
    (machine : Machine World) (number : Nat) (content : Container Value)
    (captured : Chain) :
    let pushed := machine.heap.pushNew content captured
    outer machine (inProgram number (inChain pushed.1 body)
      { machine with heap := pushed.2 }).2 :=
  Discipline.inScope hbody machine number _ captured
    (machine.heap.keptBut_pushNew content captured) (Nat.le_refl _)
    (by simp [Heap.pushNew, Heap.addFrame, Heap.push])

end Run

namespace Worker

section Forms

variable {worker : Worker World} (hworker : worker.Keeps inner outer)

include hworker

theorem moves_blockWith (content : Container Value) (block : Block) :
    Moves outer (worker.blockWith content block) :=
  Run.moves_inFrame content (moves_stmts hworker block.stmts)

theorem moves_block (block : Block) : Moves outer (worker.block block) :=
  moves_blockWith hworker .empty block

theorem moves_exprKind (span : Span) (kind : ExprKind) :
    Moves inner (worker.exprKind span kind) := by
  cases kind with
  | assign target value =>
      exact (hworker.expr value).bind fun value =>
        (Discipline.bind outer target value).bind fun _ =>
          (still_pure value).moves
  | _ => exact moves_plainExpr hworker span rfl

theorem moves_evalExpr (id : ExprId) : Moves inner (worker.evalExpr id) :=
  Run.moves_program.bind fun _ =>
    (still_found _).moves.bind fun expr =>
      Run.moves_located expr.span (moves_exprKind hworker expr.span expr.kind)

omit hworker in
theorem moves_bound (outer : Machine World → Machine World → Prop)
    [Discipline inner outer] (name : String) (value : Value) :
    Moves inner (bound name value : Run World Value) :=
  (Discipline.bind outer _ value).bind fun _ => (still_pure value).moves

/-- The frame of an inheriting block is made for it. -/
theorem moves_ownFrame (base : Chain) (body : Block) :
    Moves outer (worker.ownFrame base body) := by
  intro machine
  rw [ownFrame_apply]
  exact Run.outer_inChain (moves_stmts hworker body.stmts) machine _ _
    (machine.heap.keptBut_ownScope base machine.env) (Nat.le_refl _)
    (machine.heap.size_lt_ownScope base machine.env)

theorem moves_inherit (name parent : String) (body : Block) :
    Moves inner (worker.inherit name parent body) := by
  refine Moves.bind (Run.moves_lookup _) fun value => ?_
  cases value with
  | array base =>
      refine Moves.bind (moves_of_outer (moves_ownFrame hworker base body))
        fun own => ?_
      refine Moves.bind
        (Run.moves_withHeap fun heap => heap.keptBut_push own base)
        fun chain => moves_bound outer name _
  | _ => exact (Run.still_fault _).moves

variable [Allowance outer]

theorem moves_stmtKind (span : Span) (operand : Value) (kind : StmtKind) :
    Moves inner (worker.stmtKind span operand kind) := by
  cases kind with
  | assignBlock name body => exact moves_bound outer name operand
  | funcBlock name definition =>
      exact Moves.bind (Run.moves_newClosure name definition)
        fun value => moves_bound outer name value
  | inheritBlock name parent body =>
      exact moves_inherit hworker name parent body
  | _ =>
      exact moves_plainStmt hworker (moves_blockWith hworker) span operand rfl

theorem moves_evalStmt (id : StmtId) : Moves inner (worker.evalStmt id) :=
  Run.moves_program.bind fun _ =>
    (still_found _).moves.bind fun stmt =>
      (moves_operand hworker (moves_blockWith hworker) stmt.kind).bind
        fun operand => Run.moves_located stmt.span
          (moves_stmtKind hworker stmt.span operand stmt.kind)

omit [Allowance outer] in
theorem moves_defaults (unbound : List (String × ExprId)) :
    Moves inner (worker.defaults unbound) := by
  induction unbound with
  | nil => exact (still_pure ()).moves
  | cons first rest ih =>
      exact (hworker.expr first.2).bind fun value =>
        (Discipline.bind outer _ value).bind fun _ => ih

omit [Allowance outer] in
/-- The frame of a call is made for it, and all other frames of its scope are
older. -/
theorem moves_runBody (number : Nat) (func : FuncDef) (captured : Chain)
    (content : Container Value) (unbound : List (String × ExprId)) :
    Moves outer (worker.runBody number func captured content unbound) := by
  intro machine
  have hbody : Moves inner (do
      worker.defaults unbound
      Run.catchReturn (worker.stmts func.body.stmts) : Run World Value) :=
    (moves_defaults hworker unbound).bind fun _ =>
      Run.moves_catchReturn (moves_stmts hworker func.body.stmts)
  exact Run.outer_inProgram hbody machine number content captured

theorem moves_callScript (name : String) (number : Nat) (definition : FuncId)
    (captured : Chain) (args : Container Value) :
    Moves outer
      (worker.callScript name number definition captured args) := by
  refine (still_read _).moves.bind fun _ => ?_
  refine (still_found _).moves.bind fun program => ?_
  refine (still_found _).moves.bind fun func => ?_
  refine (still_found _).moves.bind fun params => ?_
  refine (Run.still_ofExcept _).moves.bind fun bindings => ?_
  exact (moves_callFrame _ _).bind fun content =>
    moves_runBody hworker number func captured content bindings.defaults

theorem moves_evalCall {natives : Natives World}
    (hask : ∀ name args, Moves outer (Run.askHost natives name args))
    (id : FunctionId) (args : Container Value) (site : Option Span) :
    Moves outer (worker.evalCall natives id args site) := by
  refine (still_read _).moves.bind fun _ => ?_
  refine (still_found _).moves.bind fun function => ?_
  dsimp only
  refine Discipline.inCall inner ?_ _
  split
  · exact hask function.name _
  · exact moves_callScript hworker function.name _ _ _ _

end Forms

end Worker

/-- What the parts of a task keep to, the task keeps to. -/
theorem perform_keeps [Allowance outer] {natives : Natives World}
    (hask : ∀ name args, Moves outer (Run.askHost natives name args))
    {worker : Worker World} (hworker : worker.Keeps inner outer) :
    (perform natives worker).Keeps inner outer where
  expr id := Worker.moves_evalExpr hworker id
  stmt id := Worker.moves_evalStmt hworker id
  call function args site :=
    Worker.moves_evalCall hworker hask function args site

end Disciplines

end ChainScript
