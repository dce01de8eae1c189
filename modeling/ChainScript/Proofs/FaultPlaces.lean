import ChainScript.Interpreter
import ChainScript.Proofs.PlacesInText

/-
The places of faults are places in the running programs.

Most faults name no place where they arise.  Every expression and statement
names its own place in those that leave it without one, save that a statement
passes on what leaves its operand, which has left an expression or a statement
by then.  So a fault has a place when it leaves an expression or a statement.  A
call passes on what leaves its body, and a fault of the call itself gets its
place from the expression or statement that the call is part of.
-/

namespace ChainScript

open Step

variable {World α β : Type}

/-- The span is that of a row of one of the programs. -/
def PlacedIn (programs : Array Program) (span : Span) : Prop :=
  ∃ program ∈ programs, program.Places span

/-- If the exit names a place, it is in one of the programs. -/
def Exit.PlacedIn (programs : Array Program) (exit : Exit) : Prop :=
  ∀ span, exit.span = some span → ChainScript.PlacedIn programs span

/-- The exit names a place in one of the programs. -/
def Exit.LocatedIn (programs : Array Program) (exit : Exit) : Prop :=
  ∃ span, exit.span = some span ∧ ChainScript.PlacedIn programs span

variable {programs : Array Program}

namespace Exit

variable {exit : Exit}

theorem LocatedIn.placedIn (hexit : exit.LocatedIn programs) :
    exit.PlacedIn programs := by
  obtain ⟨span, hspan, hplaced⟩ := hexit
  intro other hother
  rwa [Option.some.inj (hother.symm.trans hspan)]

/-- An exit without a place gets one. -/
theorem PlacedIn.orSpan (hexit : exit.PlacedIn programs) {span : Span}
    (hspan : ChainScript.PlacedIn programs span) :
    (exit.orSpan span).LocatedIn programs := by
  unfold Exit.orSpan
  split
  · exact ⟨span, rfl, hspan⟩
  · next place hplace => exact ⟨place, hplace, hexit place hplace⟩

theorem span_attach (calls : CallStack) (exit : Exit) :
    (calls.attach exit).span = exit.span := by
  unfold CallStack.attach
  split <;> rfl

end Exit

/-- The end is a good answer or an allowed exit. -/
def Outcome.Exits (Allowed : Exit → Prop) (Good : α → Prop) :
    Outcome Exit α → Prop
  | .ok value => Good value
  | .error failure => Allowed failure
  | .halted _ => True

namespace Run

/-- The computation leaves the programs alone, and ends in a good answer or an
allowed exit. -/
def Exits (programs : Array Program) (Allowed : Exit → Prop)
    (body : Run World α) (Good : α → Prop) : Prop :=
  ∀ machine, machine.programs = programs →
    (body machine).2.programs = programs ∧
      (body machine).1.Exits Allowed Good

variable {Allowed : Exit → Prop} {body : Run World α} {Good : α → Prop}
  {Then : β → Prop}

section Combinators

theorem exits_pure {value : α} (hgood : Good value) :
    Exits programs Allowed (pure value : Run World α) Good :=
  fun _ hmachine => ⟨hmachine, hgood⟩

theorem exits_fail {exit : Exit} (hexit : Allowed exit) :
    Exits programs Allowed (Step.fail exit : Run World α) Good :=
  fun _ hmachine => ⟨hmachine, hexit⟩

theorem exits_halt (reason : Halt) :
    Exits programs Allowed (Step.halt reason : Run World α) Good :=
  fun _ hmachine => ⟨hmachine, trivial⟩

theorem exits_read (f : Machine World → α) :
    Exits programs Allowed (Step.read f) fun _ => True :=
  fun _ hmachine => ⟨hmachine, trivial⟩

theorem exits_readHeap (f : Heap → α) :
    Exits programs Allowed (readHeap f : Run World α) fun _ => True :=
  exits_read _

theorem exits_withHeap (f : Heap → α × Heap) :
    Exits programs Allowed (withHeap f : Run World α) fun _ => True :=
  fun _ hmachine => ⟨hmachine, trivial⟩

theorem exits_found (row : Option α) :
    Exits programs Allowed (Step.found row : Run World α) (row = some ·) := by
  cases row with
  | some value => exact exits_pure rfl
  | none => exact exits_halt _

theorem Exits.bind {next : α → Run World β}
    (hbody : Exits programs Allowed body Good)
    (hnext : ∀ value, Good value → Exits programs Allowed (next value) Then) :
    Exits programs Allowed (body >>= next) Then := by
  intro machine hmachine
  obtain ⟨hmiddle, hend⟩ := hbody machine hmachine
  rw [bind_apply]
  rcases hrun : body machine with ⟨outcome, middle⟩
  rw [hrun] at hmiddle hend
  cases outcome with
  | ok value => exact hnext value hend middle hmiddle
  | error exit => exact ⟨hmiddle, hend⟩
  | halted reason => exact ⟨hmiddle, trivial⟩

/-- A computation of which the answer does not matter. -/
theorem Exits.andThen {next : α → Run World β}
    (hbody : Exits programs Allowed body Good)
    (hnext : ∀ value, Exits programs Allowed (next value) Then) :
    Exits programs Allowed (body >>= next) Then :=
  hbody.bind fun value _ => hnext value

theorem Exits.mono {More : Exit → Prop}
    (hbody : Exits programs Allowed body Good)
    (hmore : ∀ exit, Allowed exit → More exit) :
    Exits programs More body Good := by
  intro machine hmachine
  obtain ⟨hafter, hend⟩ := hbody machine hmachine
  refine ⟨hafter, ?_⟩
  generalize (body machine).1 = outcome at hend ⊢
  cases outcome with
  | ok value => exact hend
  | error exit => exact hmore exit hend
  | halted reason => trivial

/-- The program whose code runs is one of the programs. -/
theorem exits_program :
    Exits programs Allowed (program : Run World Program) (· ∈ programs) := by
  intro machine hmachine
  rw [program, bind_apply, read_apply]
  cases hrow : machine.programs[machine.program]? with
  | none => exact ⟨hmachine, trivial⟩
  | some running =>
      refine ⟨hmachine, ?_⟩
      rw [← hmachine]
      exact Array.mem_of_getElem? hrow

/-- An exit with a place in the programs has no other place. -/
theorem Exits.placed (hbody : Exits programs (Exit.LocatedIn programs) body Good) :
    Exits programs (Exit.PlacedIn programs) body Good :=
  hbody.mono fun _ => Exit.LocatedIn.placedIn

/-- What an attempt hands on. -/
theorem Exits.attempt {More : Exit → Prop}
    (hbody : Exits programs Allowed body Good) :
    Exits programs More (Step.attempt body) fun result =>
      ∀ exit, result = .error exit → Allowed exit := by
  intro machine hmachine
  obtain ⟨hafter, hend⟩ := hbody machine hmachine
  unfold Step.attempt
  rcases hrun : body machine with ⟨outcome, after⟩
  rw [hrun] at hafter hend
  cases outcome with
  | ok value => exact ⟨hafter, nofun⟩
  | error failure =>
      refine ⟨hafter, ?_⟩
      rintro exit ⟨⟩
      exact hend
  | halted reason => exact ⟨hafter, trivial⟩

/-- Naming a place in the programs leaves no exit without one. -/
theorem Exits.located {span : Span} (hspan : PlacedIn programs span)
    (hbody : Exits programs (Exit.PlacedIn programs) body Good) :
    Exits programs (Exit.LocatedIn programs) (located span body) Good := by
  intro machine hmachine
  obtain ⟨hafter, hend⟩ := hbody machine hmachine
  unfold Run.located mapError
  rcases hrun : body machine with ⟨outcome, after⟩
  rw [hrun] at hafter hend
  cases outcome with
  | ok value => exact ⟨hafter, hend⟩
  | error exit => exact ⟨hafter, Exit.PlacedIn.orSpan hend hspan⟩
  | halted reason => exact ⟨hafter, trivial⟩

theorem Exits.catchReturn {body : Run World Value}
    (hbody : Exits programs Allowed body fun _ => True) :
    Exits programs Allowed (catchReturn body) fun _ => True := by
  intro machine hmachine
  obtain ⟨hafter, hend⟩ := hbody machine hmachine
  unfold Run.catchReturn
  rcases hrun : body machine with ⟨outcome, after⟩
  rw [hrun] at hafter hend
  cases outcome with
  | error exit =>
      dsimp only
      split
      · exact ⟨hafter, trivial⟩
      · exact ⟨hafter, hend⟩
  | ok value => exact ⟨hafter, trivial⟩
  | halted reason => exact ⟨hafter, trivial⟩

theorem Exits.inFrame (content : Container Value)
    (hbody : Exits programs Allowed body Good) :
    Exits programs Allowed (inFrame content body) Good :=
  fun _ hmachine => hbody _ hmachine

theorem Exits.inChain (chain : Chain)
    (hbody : Exits programs Allowed body Good) :
    Exits programs Allowed (inChain chain body) Good :=
  fun _ hmachine => hbody _ hmachine

theorem Exits.inProgram (number : Nat)
    (hbody : Exits programs Allowed body Good) :
    Exits programs Allowed (inProgram number body) Good :=
  fun _ hmachine => hbody _ hmachine

/-- Noting the active calls changes no place. -/
theorem Exits.noting (hbody : Exits programs (Exit.PlacedIn programs) body Good) :
    Exits programs (Exit.PlacedIn programs) (noting body) Good := by
  intro machine hmachine
  obtain ⟨hafter, hend⟩ := hbody machine hmachine
  unfold Run.noting
  rcases hrun : body machine with ⟨outcome, after⟩
  rw [hrun] at hafter hend
  cases outcome with
  | ok value => exact ⟨hafter, hend⟩
  | error exit =>
      refine ⟨hafter, fun span hspan => hend span ?_⟩
      rwa [Exit.span_attach] at hspan
  | halted reason => exact ⟨hafter, trivial⟩

end Combinators

section Primitives

theorem exits_fault (cause : Cause) :
    Exits programs (Exit.PlacedIn programs) (fault cause : Run World α) Good :=
  exits_fail nofun

theorem exits_signal (way : Signal) :
    Exits programs (Exit.PlacedIn programs) (signal way : Run World α) Good :=
  exits_fail nofun

theorem exits_faultAt {span : Span} (hspan : PlacedIn programs span)
    (cause : Cause) :
    Exits programs (Exit.PlacedIn programs)
      (faultAt span cause : Run World α) Good := by
  refine exits_fail ?_
  rintro _ ⟨⟩
  exact hspan

theorem exits_ofExcept (result : Except Cause α) :
    Exits programs (Exit.PlacedIn programs)
      (ofExcept result : Run World α) fun _ => True := by
  cases result with
  | ok value => exact exits_pure trivial
  | error cause => exact exits_fault cause

theorem exits_ofOutcome (outcome : Outcome Cause α) :
    Exits programs (Exit.PlacedIn programs)
      (Run.ofOutcome outcome : Run World α) fun _ => True := by
  cases outcome with
  | ok value => exact exits_pure trivial
  | error cause => exact exits_fault cause
  | halted reason => exact exits_halt reason

theorem exits_lookup (key : Key) :
    Exits programs (Exit.PlacedIn programs) (lookup key : Run World Value)
      fun _ => True := by
  refine (exits_read _).andThen fun found => ?_
  split
  · exact exits_pure trivial
  · exact exits_fault _

theorem exits_bind (key : Key) (value : Value) :
    Exits programs Allowed (Run.bind key value : Run World Unit)
      fun _ => True :=
  fun _ hmachine => ⟨hmachine, trivial⟩

theorem exits_newArray (content : Container Value) :
    Exits programs Allowed (newArray content : Run World Value)
      fun _ => True :=
  exits_withHeap _

theorem exits_newClosure (name : String) (definition : FuncId) :
    Exits programs Allowed (newClosure name definition : Run World Value)
      fun _ => True :=
  fun _ hmachine => ⟨hmachine, trivial⟩

theorem exits_compose (left right : Value) :
    Exits programs Allowed
      (Run.compose left right : Run World (Except Cause Value))
      fun _ => True := by
  refine (exits_readHeap _).andThen fun result => ?_
  split
  · exact exits_withHeap _
  · exact exits_pure trivial

theorem exits_textOf (value : Value) :
    Exits programs Allowed (textOf value : Run World String)
      fun _ => True := by
  refine (exits_readHeap _).andThen fun text => ?_
  cases text with
  | some text => exact exits_pure trivial
  | none => exact exits_halt _

theorem Exits.inCall (call : ActiveCall)
    (hbody : Exits programs (Exit.PlacedIn programs) body Good) :
    Exits programs (Exit.PlacedIn programs) (inCall call body) Good := by
  refine (exits_read _).andThen fun calls => ?_
  refine (exits_ofExcept _).andThen fun pushed => ?_
  exact fun _ hmachine => hbody.noting _ hmachine

end Primitives

end Run

namespace Worker

open Run

/-- Expressions and statements name a place in whatever leaves them; calls may
leave that to where they are part of. -/
structure Locates (programs : Array Program) (worker : Worker World) : Prop where
  expr : ∀ id, Exits programs (Exit.LocatedIn programs) (worker (.expr id))
    fun _ => True
  stmt : ∀ id, Exits programs (Exit.LocatedIn programs) (worker (.stmt id))
    fun _ => True
  call : ∀ function args site, Exits programs (Exit.PlacedIn programs)
    (worker (.call function args site)) fun _ => True

variable {worker : Worker World}

section Expressions

theorem exits_memberOf (receiver : Value) (key : Key) :
    Exits programs (Exit.PlacedIn programs)
      (memberOf receiver key : Run World Value) fun _ => True := by
  cases receiver with
  | array chain =>
      refine (exits_readHeap _).andThen fun found => ?_
      split
      · exact exits_pure trivial
      · exact exits_fault _
  | _ => exact exits_fault _

variable (hworker : worker.Locates programs)

include hworker

theorem exits_expr (id : ExprId) :
    Exits programs (Exit.PlacedIn programs) (worker.expr id) fun _ => True :=
  (hworker.expr id).placed

theorem exits_optional (value : Option ExprId) :
    Exits programs (Exit.LocatedIn programs) (worker.optional value)
      fun _ => True := by
  cases value with
  | some id => exact hworker.expr id
  | none => exact exits_pure trivial

/-- An entry whose place is in the programs. -/
theorem exits_entry (content : Container Value) {row : Entry}
    (hrow : PlacedIn programs row.span) :
    Exits programs (Exit.PlacedIn programs) (worker.entry content row)
      fun _ => True := by
  obtain ⟨kind, span⟩ := row
  cases kind with
  | item value =>
      exact (exits_expr hworker value).andThen fun _ => exits_pure trivial
  | keyed key value =>
      exact (exits_expr hworker value).andThen fun _ => exits_pure trivial
  | expand name =>
      have hlookup : Exits programs (Exit.LocatedIn programs)
          (located span (lookup (.badge name)) : Run World Value)
          fun _ => True :=
        (exits_lookup _).located hrow
      refine hlookup.placed.andThen fun value => ?_
      split
      · exact (exits_readHeap _).andThen fun _ => exits_pure trivial
      · exact exits_faultAt hrow _

theorem exits_entriesFrom (content : Container Value) {rows : List Entry}
    (hrows : ∀ row ∈ rows, PlacedIn programs row.span) :
    Exits programs (Exit.PlacedIn programs) (worker.entriesFrom content rows)
      fun _ => True := by
  induction rows generalizing content with
  | nil => exact exits_pure trivial
  | cons first rest ih =>
      obtain ⟨hfirst, hrest⟩ := List.forall_mem_cons.mp hrows
      exact (exits_entry hworker content hfirst).andThen fun content =>
        ih content hrest

theorem exits_entries (range : EntryRange) :
    Exits programs (Exit.PlacedIn programs) (worker.entries range)
      fun _ => True := by
  refine exits_program.bind fun running hrunning => ?_
  refine (exits_found _).bind fun rows hrows => ?_
  exact exits_entriesFrom hworker .empty fun row hrow =>
    ⟨running, hrunning, Program.places_of_entries? hrows hrow⟩

theorem exits_logical (op : BinaryOp) (left right : ExprId) :
    Exits programs (Exit.PlacedIn programs) (worker.logical op left right)
      fun _ => True := by
  refine (exits_expr hworker left).andThen fun value => ?_
  refine (exits_ofExcept _).andThen fun first => ?_
  split
  · exact exits_pure trivial
  · exact (exits_expr hworker right).andThen fun _ =>
      (exits_ofExcept _).andThen fun _ => exits_pure trivial

theorem exits_binary (op : BinaryOp) (left right : ExprId) :
    Exits programs (Exit.PlacedIn programs) (worker.binary op left right)
      fun _ => True := by
  unfold binary
  split
  · exact exits_logical hworker _ left right
  · exact exits_logical hworker _ left right
  · exact (exits_expr hworker left).andThen fun _ =>
      (exits_expr hworker right).andThen fun _ =>
        (exits_readHeap _).andThen fun outcome => exits_ofOutcome outcome

theorem exits_composeExpr (left right : ExprId) :
    Exits programs (Exit.PlacedIn programs) (worker.compose left right)
      fun _ => True :=
  (exits_expr hworker left).andThen fun _ =>
    (exits_expr hworker right).andThen fun _ =>
      (exits_compose _ _).andThen fun result => exits_ofExcept result

theorem exits_callExpr (callee : ExprId) (args : EntryRange) (span : Span) :
    Exits programs (Exit.PlacedIn programs) (worker.callExpr callee args span)
      fun _ => True := by
  refine (exits_expr hworker callee).andThen fun function => ?_
  refine (exits_entries hworker args).andThen fun content => ?_
  split
  · exact hworker.call _ _ _
  · exact exits_fault _

theorem exits_exprKind (span : Span) (kind : ExprKind) :
    Exits programs (Exit.PlacedIn programs) (worker.exprKind span kind)
      fun _ => True := by
  cases kind with
  | null | bool | int | float | str => exact exits_pure trivial
  | ident | badge => exact exits_lookup _
  | member receiver key =>
      exact (exits_expr hworker receiver).andThen fun value =>
        exits_memberOf value key
  | index receiver key =>
      exact (exits_expr hworker receiver).andThen fun value =>
        (exits_expr hworker key).andThen fun _ =>
          (exits_ofExcept _).andThen fun _ => exits_memberOf value _
  | array range | args range =>
      exact (exits_entries hworker range).andThen fun _ => exits_newArray _
  | binary op left right => exact exits_binary hworker op left right
  | unary op operand =>
      exact (exits_expr hworker operand).andThen fun _ => exits_ofExcept _
  | compose left right => exact exits_composeExpr hworker left right
  | call callee args => exact exits_callExpr hworker callee args span
  | assign target value =>
      exact (exits_expr hworker value).andThen fun _ =>
        (exits_bind _ _).andThen fun _ => exits_pure trivial
  | func definition =>
      exact exits_program.andThen fun _ => (exits_found _).andThen fun _ =>
        exits_newClosure _ _

theorem exits_evalExpr (id : ExprId) :
    Exits programs (Exit.LocatedIn programs) (worker.evalExpr id)
      fun _ => True := by
  refine exits_program.bind fun running hrunning => ?_
  refine (exits_found _).bind fun row hrow => ?_
  exact (exits_exprKind hworker row.span row.kind).located
    ⟨running, hrunning, Program.places_of_expr? hrow⟩

end Expressions

section Statements

theorem exits_bound (name : String) (value : Value) :
    Exits programs (Exit.PlacedIn programs)
      (bound name value : Run World Value) fun _ => True :=
  (exits_bind _ _).andThen fun _ => exits_pure trivial

theorem exits_hook? (resource : Value) (label : String) :
    Exits programs (Exit.PlacedIn programs)
      (hook? resource label : Run World (Option FunctionId))
      fun _ => True := by
  cases resource with
  | array chain =>
      refine (exits_readHeap _).andThen fun found => ?_
      split
      · exact exits_pure trivial
      · exact exits_pure trivial
  | _ => exact exits_pure trivial

theorem exits_recoveryBindings (binding : Option String) (cause : Cause) :
    Exits programs (Exit.PlacedIn programs)
      (recoveryBindings binding cause : Run World (Container Value))
      fun _ => True := by
  cases binding with
  | none => exact exits_pure trivial
  | some name =>
      have hvalue : Exits programs (Exit.PlacedIn programs)
          (caughtValue cause : Run World Value) fun _ => True := by
        unfold caughtValue
        split
        · exact exits_pure trivial
        · exact exits_newArray _
      exact hvalue.andThen fun _ => exits_pure trivial

variable (hworker : worker.Locates programs)

include hworker

theorem exits_entering (enter : Option FunctionId) (span : Span)
    (resource : Value) :
    Exits programs (Exit.PlacedIn programs)
      (worker.entering enter span resource) fun _ => True := by
  cases enter with
  | some id => exact hworker.call _ _ _
  | none => exact exits_pure trivial

theorem exits_releasing (release : Option FunctionId) (span : Span)
    {body : Run World Value}
    (hbody : Exits programs (Exit.PlacedIn programs) body fun _ => True) :
    Exits programs (Exit.PlacedIn programs)
      (worker.releasing release span body) fun _ => True := by
  cases release with
  | none => exact hbody
  | some id =>
      refine hbody.attempt.bind fun result hresult => ?_
      refine (hworker.call _ _ _).attempt.bind fun released hreleased => ?_
      cases result with
      | error exit => exact exits_fail (hresult exit rfl)
      | ok value =>
          cases released with
          | ok _ => exact exits_pure trivial
          | error exit => exact exits_fail (hreleased exit rfl)

/-- What leaves a list of statements has left one of them. -/
theorem exits_stmtsFrom (last : Value) (ids : List StmtId) :
    Exits programs (Exit.LocatedIn programs) (worker.stmtsFrom last ids)
      fun _ => True := by
  induction ids generalizing last with
  | nil => exact exits_pure trivial
  | cons id rest ih => exact (hworker.stmt id).andThen fun value => ih value

theorem exits_stmts (range : StmtRange) :
    Exits programs (Exit.LocatedIn programs) (worker.stmts range)
      fun _ => True :=
  exits_program.andThen fun _ => (exits_found _).andThen fun ids =>
    exits_stmtsFrom hworker .null ids

theorem exits_blockWith (content : Container Value) (block : Block) :
    Exits programs (Exit.LocatedIn programs) (worker.blockWith content block)
      fun _ => True :=
  (exits_stmts hworker block.stmts).inFrame content

theorem exits_block (block : Block) :
    Exits programs (Exit.LocatedIn programs) (worker.block block)
      fun _ => True :=
  exits_blockWith hworker .empty block

omit hworker in
/-- A fault of an expression of the running program that has been evaluated. -/
theorem exits_faultOf (id : ExprId) (cause : Cause) :
    Exits programs (Exit.PlacedIn programs)
      (do
        let program ← Run.program
        let expr ← Step.found (program.expr? id)
        Run.faultAt expr.span cause : Run World Value) fun _ => True :=
  exits_program.bind fun running hrunning =>
    (exits_found _).bind fun _ hrow =>
      exits_faultAt ⟨running, hrunning, Program.places_of_expr? hrow⟩ cause

theorem exits_branch (condition : ExprId) (thenBlock : Block)
    (elseBlock : Option Block) :
    Exits programs (Exit.PlacedIn programs)
      (worker.branch condition thenBlock elseBlock) fun _ => True := by
  refine (exits_expr hworker condition).andThen fun value => ?_
  split
  · exact exits_faultOf condition _
  · exact (exits_block hworker thenBlock).placed
  · split
    · exact (exits_block hworker _).placed
    · exact exits_pure trivial

theorem exits_rounds (key : Option String) (value : String) (body : Block)
    (entries : List (Key × Value)) :
    Exits programs (Exit.PlacedIn programs)
      (worker.rounds key value body entries) fun _ => True := by
  induction entries with
  | nil => exact exits_pure trivial
  | cons entry rest ih =>
      refine (exits_ofExcept _).andThen fun content => ?_
      refine (exits_blockWith hworker content body).attempt.bind
        fun result hresult => ?_
      cases result with
      | ok value => exact ih
      | error exit =>
          dsimp only
          split
          · exact exits_pure trivial
          · exact ih
          · exact exits_fail (hresult exit rfl).placedIn

theorem exits_loop (key : Option String) (value : String) (iterated : ExprId)
    (body : Block) :
    Exits programs (Exit.PlacedIn programs)
      (worker.loop key value iterated body) fun _ => True := by
  refine (exits_expr hworker iterated).andThen fun array => ?_
  split
  · exact (exits_readHeap _).andThen fun _ =>
      exits_rounds hworker key value body _
  · exact exits_faultOf iterated _

theorem exits_attempt (body : Block) (recovery : CatchClause) :
    Exits programs (Exit.PlacedIn programs) (worker.attempt body recovery)
      fun _ => True := by
  refine (exits_block hworker body).attempt.bind fun result hresult => ?_
  cases result with
  | ok value => exact exits_pure trivial
  | error exit =>
      have hexit := (hresult exit rfl).placedIn
      refine exits_program.andThen fun _ => ?_
      refine (exits_found _).andThen fun kinds => ?_
      split
      · exact exits_fail hexit
      · split
        · exact (exits_recoveryBindings _ _).andThen fun content =>
            (exits_blockWith hworker content _).placed
        · exact exits_fail hexit

theorem exits_resource (acquired : ExprId) (binding : Option String)
    (body : Block) (span : Span) :
    Exits programs (Exit.PlacedIn programs)
      (worker.resource acquired binding body span) fun _ => True := by
  refine (exits_expr hworker acquired).andThen fun resource => ?_
  refine (exits_hook? _ _).andThen fun enter => ?_
  refine (exits_hook? _ _).andThen fun release => ?_
  refine (exits_entering hworker enter span resource).andThen fun bound => ?_
  exact exits_releasing hworker release span
    (exits_blockWith hworker _ body).placed

theorem exits_ownFrame (base : Chain) (body : Block) :
    Exits programs (Exit.PlacedIn programs) (worker.ownFrame base body)
      fun _ => True := by
  refine (exits_withHeap _).andThen fun own => ?_
  refine (exits_read _).andThen fun outer => ?_
  refine (exits_withHeap _).andThen fun scope => ?_
  exact ((exits_stmts hworker body.stmts).inChain scope).placed.andThen
    fun _ => exits_pure trivial

theorem exits_inherit (name parent : String) (body : Block) :
    Exits programs (Exit.PlacedIn programs) (worker.inherit name parent body)
      fun _ => True := by
  refine (exits_lookup _).andThen fun value => ?_
  split
  · exact (exits_ownFrame hworker _ body).andThen fun _ =>
      (exits_withHeap _).andThen fun _ => exits_bound _ _
  · exact exits_fault _

/-- What leaves a statement without its place has left one of its parts. -/
theorem exits_operand (kind : StmtKind) :
    Exits programs (Exit.LocatedIn programs) (worker.operand kind)
      fun _ => True := by
  cases kind with
  | assignBlock name body => exact exits_block hworker body
  | «return» value | raise value => exact exits_optional hworker value
  | _ => exact exits_pure trivial

theorem exits_stmtKind (span : Span) (operand : Value) (kind : StmtKind) :
    Exits programs (Exit.PlacedIn programs)
      (worker.stmtKind span operand kind) fun _ => True := by
  cases kind with
  | expr value => exact exits_expr hworker value
  | branch condition thenBlock elseBlock =>
      exact exits_branch hworker condition thenBlock elseBlock
  | scope body => exact (exits_block hworker body).placed
  | loop key value iterated body =>
      exact exits_loop hworker key value iterated body
  | attempt body recovery => exact exits_attempt hworker body recovery
  | resource acquired binding body =>
      exact exits_resource hworker acquired binding body span
  | assignBlock name body => exact exits_bound _ _
  | funcBlock name definition =>
      exact (exits_newClosure _ _).andThen fun _ => exits_bound _ _
  | inheritBlock name parent body =>
      exact exits_inherit hworker name parent body
  | «return» value => exact exits_signal _
  | «break» => exact exits_signal _
  | «continue» => exact exits_signal _
  | raise value =>
      exact (exits_textOf _).andThen fun _ => exits_fault _

theorem exits_evalStmt (id : StmtId) :
    Exits programs (Exit.LocatedIn programs) (worker.evalStmt id)
      fun _ => True := by
  refine exits_program.bind fun running hrunning => ?_
  refine (exits_found _).bind fun row hrow => ?_
  refine (exits_operand hworker row.kind).andThen fun operand => ?_
  exact (exits_stmtKind hworker row.span operand row.kind).located
    ⟨running, hrunning, Program.places_of_stmt? hrow⟩

end Statements

section Calls

theorem exits_callFrame (content : Container Value)
    (supplied : List (String × Supplied)) :
    Exits programs (Exit.PlacedIn programs)
      (callFrame content supplied : Run World (Container Value))
      fun _ => True := by
  induction supplied generalizing content with
  | nil => exact exits_pure trivial
  | cons entry rest ih =>
      obtain ⟨name, value | entries⟩ := entry
      · exact ih _
      · exact (exits_newArray _).andThen fun _ => ih _

variable (hworker : worker.Locates programs)

include hworker

theorem exits_defaults (unbound : List (String × ExprId)) :
    Exits programs (Exit.PlacedIn programs) (worker.defaults unbound)
      fun _ => True := by
  induction unbound with
  | nil => exact exits_pure trivial
  | cons entry rest ih =>
      exact (exits_expr hworker entry.2).andThen fun _ =>
        (exits_bind _ _).andThen fun _ => ih

theorem exits_runBody (number : Nat) (func : FuncDef) (captured : Chain)
    (content : Container Value) (unbound : List (String × ExprId)) :
    Exits programs (Exit.PlacedIn programs)
      (worker.runBody number func captured content unbound)
      fun _ => True := by
  refine (exits_withHeap _).andThen fun scope => ?_
  refine Exits.inProgram number (Exits.inChain scope ?_)
  refine (exits_defaults hworker unbound).andThen fun _ => ?_
  exact (exits_stmts hworker func.body.stmts).placed.catchReturn

theorem exits_callScript (name : String) (number : Nat) (definition : FuncId)
    (captured : Chain) (args : Container Value) :
    Exits programs (Exit.PlacedIn programs)
      (worker.callScript name number definition captured args)
      fun _ => True := by
  refine (exits_read _).andThen fun row => ?_
  refine (exits_found _).andThen fun program => ?_
  refine (exits_found _).andThen fun func => ?_
  refine (exits_found _).andThen fun params => ?_
  refine (exits_ofExcept _).andThen fun bindings => ?_
  refine (exits_callFrame _ _).andThen fun content => ?_
  exact exits_runBody hworker number func captured content _

/-- A call, if the functions of the host name places in the programs only. -/
theorem exits_evalCall {natives : Natives World}
    (hnatives : ∀ name args, Exits programs (Exit.PlacedIn programs)
      (askHost natives name args) fun _ => True)
    (id : FunctionId) (args : Container Value) (site : Option Span) :
    Exits programs (Exit.PlacedIn programs)
      (worker.evalCall natives id args site) fun _ => True := by
  refine (exits_readHeap _).andThen fun row => ?_
  refine (exits_found _).andThen fun function => ?_
  refine Exits.inCall _ ?_
  split
  · exact hnatives _ _
  · exact exits_callScript hworker _ _ _ _ _

theorem Locates.perform {natives : Natives World}
    (hnatives : ∀ name args, Exits programs (Exit.PlacedIn programs)
      (askHost natives name args) fun _ => True) :
    (perform natives worker).Locates programs where
  expr := exits_evalExpr hworker
  stmt := exits_evalStmt hworker
  call := exits_evalCall hworker hnatives

end Calls

theorem locates_evaluate {natives : Natives World}
    (hnatives : ∀ name args, Exits programs (Exit.PlacedIn programs)
      (askHost natives name args) fun _ => True) (depth : Nat) :
    (evaluate natives depth).Locates programs := by
  induction depth with
  | zero =>
      exact ⟨fun _ => exits_halt _, fun _ => exits_halt _,
        fun _ _ _ => exits_halt _⟩
  | succ depth ih => exact ih.perform hnatives

end Worker

/-- Whatever leaves a script has left one of its statements. -/
theorem exits_runScript {natives : Natives World}
    (hnatives : ∀ name args, Run.Exits programs (Exit.PlacedIn programs)
      (Run.askHost natives name args) fun _ => True) (script : Script) :
    Run.Exits programs (Exit.LocatedIn programs) (runScript natives script)
      fun _ => True := by
  refine (Run.exits_read _).andThen fun depth => ?_
  exact (Worker.exits_stmts (Worker.locates_evaluate hnatives depth)
    script.body).catchReturn

/-- The host without functions names no places. -/
theorem exits_askHost_silent (name : String) (args : Container Value) :
    Run.Exits programs (Exit.PlacedIn programs)
      (Run.askHost Host.silent.natives name args) fun _ => True :=
  fun _ hmachine => ⟨hmachine, trivial⟩

end ChainScript
