import ChainScript.Proofs.Comparison
import ChainScript.Proofs.ExtraGlobals
import ChainScript.Proofs.SafeOperations

/-
Computations that ignore an extra global.

From two machines that differ only in what the name stands for in the frame of
the globals, such a computation ends in the same way, and the machines it leaves
behind differ in no more.  The results are judged too: they have to keep the
frame out of arrays, or else later code could look into it.
-/

namespace ChainScript

open Step

variable {World α β : Type}

/-- The expression asks for what a name stands for. -/
def ExprKind.asksFor (name : String) : ExprKind → Bool
  | .ident other => other = name
  | .badge key => key = .badge name
  | _ => false

/-- The entry takes the entries of what a name stands for. -/
def EntryKind.asksFor (name : String) : EntryKind → Bool
  | .expand other => other = name
  | _ => false

/-- The statement inherits from what a name stands for. -/
def StmtKind.asksFor (name : String) : StmtKind → Bool
  | .inheritBlock _ parent _ => parent = name
  | _ => false

namespace Program

variable (program : Program) (name : String)

/-- The program mentions a name: as an identifier, after `@`, after `...` or
as a parent. -/
def mentions : Bool :=
  program.exprs.any (fun expr => expr.kind.asksFor name) ||
    program.entries.any (fun entry => entry.kind.asksFor name) ||
      program.stmts.any fun stmt => stmt.kind.asksFor name

variable {program} {name} (hsilent : program.mentions name = false)

include hsilent

theorem expr_asksFor {id : ExprId} {expr : Expr}
    (hrow : program.expr? id = some expr) : expr.kind.asksFor name = false := by
  simp only [mentions, Bool.or_eq_false_iff] at hsilent
  have hmem := Array.mem_of_getElem? (Ref.row?_eq_some.mp hrow).2
  simpa using Array.any_eq_false'.mp hsilent.1.1 expr hmem

theorem stmt_asksFor {id : StmtId} {stmt : Stmt}
    (hrow : program.stmt? id = some stmt) : stmt.kind.asksFor name = false := by
  simp only [mentions, Bool.or_eq_false_iff] at hsilent
  have hmem := Array.mem_of_getElem? (Ref.row?_eq_some.mp hrow).2
  simpa using Array.any_eq_false'.mp hsilent.2 stmt hmem

theorem entry_asksFor {range : EntryRange} {entries : List Entry}
    (hrows : program.entries? range = some entries) {entry : Entry}
    (hentry : entry ∈ entries) : entry.kind.asksFor name = false := by
  unfold entries? Slice.rows? at hrows
  split at hrows
  · cases hrows
    simp only [mentions, Bool.or_eq_false_iff] at hsilent
    rw [Array.toList_extract, List.extract_eq_take_drop] at hentry
    have hmem := List.mem_of_mem_drop (List.mem_of_mem_take hentry)
    simpa using Array.any_eq_false'.mp hsilent.1.2 entry
      (Array.mem_toList_iff.mp hmem)
  · cases hrows

end Program

theorem Value.Plain.clear {extra : Extra} {value : Value}
    (hplain : value.Plain) : extra.Clear value := by
  cases value with
  | array chain => exact hplain.elim
  | _ => trivial

/-- A clear result, or an exit whose values are clear. -/
def Outcome.Clear (extra : Extra) (Good : α → Prop) : Outcome Exit α → Prop
  | .ok value => Good value
  | .error exit => ∀ value ∈ exit.values, extra.Clear value
  | .halted _ => True

/-- Two machines in code of a program, which differ in their heaps alone, and
there only in what the name stands for.  Only code that does not mention the
name has the frame in its scope. -/
structure Extra.At (extra : Extra) (known : World → Value → Prop)
    (number : Nat) (machine : Machine World) (heap : Heap) : Prop where
  twins : extra.Twins machine.heap heap
  program_eq : machine.program = number
  admits : extra.Admits number machine.env
  silent : ∀ program, machine.programs[extra.program]? = some program →
    program.mentions extra.name = false
  known : ∀ value, known machine.world value → extra.Clear value

theorem Extra.Admits.tail {extra : Extra} {number : Nat} {scope : Chain}
    (hadmits : extra.Admits number scope) : extra.Admits number scope.tail := by
  intro hframe
  apply hadmits
  cases scope with
  | nil => exact hframe
  | cons link outer => exact List.mem_cons_of_mem _ hframe

namespace Run

/-- In code of a program, the computation makes no difference between two
machines that differ in the extra global alone. -/
def Ignores (extra : Extra) (known : World → Value → Prop) (number : Nat)
    (body : Run World α) (Good : α → Prop) : Prop :=
  ∀ machine heap, extra.At known number machine heap →
    ∃ after, body { machine with heap } =
        ((body machine).1, { (body machine).2 with heap := after }) ∧
      extra.At known number (body machine).2 after ∧
      (body machine).1.Clear extra Good

variable {extra : Extra} {known : World → Value → Prop} {number : Nat}
  {body : Run World α} {Good : α → Prop} {Then : β → Prop}

theorem ignores_ofOutcome (outcome : Outcome Exit α)
    (hgood : outcome.Clear extra Good) :
    Ignores extra known number (Step.ofOutcome outcome) Good :=
  fun _ heap hat => ⟨heap, rfl, hat, hgood⟩

theorem ignores_pure {value : α} (hgood : Good value) :
    Ignores extra known number (pure value) Good :=
  ignores_ofOutcome (.ok value) hgood

theorem ignores_fail {exit : Exit}
    (hexit : ∀ value ∈ exit.values, extra.Clear value) :
    Ignores extra known number (Step.fail exit) Good :=
  ignores_ofOutcome (.error exit) hexit

theorem ignores_fault {cause : Cause} (hbare : cause.Bare) :
    Ignores extra known number (fault cause) Good := by
  apply ignores_fail
  intro value hvalue
  rw [show (Exit.ofCause cause).values = [] from hbare] at hvalue
  exact absurd hvalue List.not_mem_nil

theorem ignores_faultAt {span : Span} {cause : Cause} (hbare : cause.Bare) :
    Ignores extra known number (faultAt span cause) Good := by
  apply ignores_fail
  intro value hvalue
  change value ∈ (Exit.ofCause cause).values at hvalue
  rw [show (Exit.ofCause cause).values = [] from hbare] at hvalue
  exact absurd hvalue List.not_mem_nil

theorem ignores_found {row : Option α}
    (hgood : ∀ value, row = some value → Good value) :
    Ignores extra known number (Step.found row) Good := by
  cases row with
  | none => exact ignores_ofOutcome _ trivial
  | some value => exact ignores_pure (hgood value rfl)

theorem ignores_ofExcept {result : Except Cause α}
    (hbare : ∀ cause, result = .error cause → cause.Bare)
    (hgood : ∀ value, result = .ok value → Good value) :
    Ignores extra known number (ofExcept result) Good := by
  cases result with
  | ok value => exact ignores_pure (hgood value rfl)
  | error cause => exact ignores_fault (hbare cause rfl)

theorem ignores_plainResult {result : Except Cause Value}
    (hplain : PlainResult result) :
    Ignores extra known number (ofExcept result) extra.Clear := by
  cases result with
  | ok value => exact ignores_pure (Value.Plain.clear hplain)
  | error cause => exact ignores_fault hplain

theorem ignores_plainOutcome {outcome : Outcome Cause Value}
    (hplain : PlainOutcome outcome) :
    Ignores extra known number (ofOutcome outcome) extra.Clear := by
  cases outcome with
  | ok value => exact ignores_pure (Value.Plain.clear hplain)
  | error cause => exact ignores_fault hplain
  | halted reason => exact ignores_ofOutcome _ trivial

theorem Ignores.bind {next : α → Run World β}
    (hbody : Ignores extra known number body Good)
    (hnext : ∀ value, Good value →
      Ignores extra known number (next value) Then) :
    Ignores extra known number (body >>= next) Then := by
  intro machine heap hat
  obtain ⟨middle, hsame, hat', hclear⟩ := hbody machine heap hat
  rw [bind_apply, bind_apply, hsame]
  rcases hend : body machine with ⟨outcome, stopped⟩
  rw [hend] at hat' hclear
  cases outcome with
  | ok value => exact hnext value hclear stopped middle hat'
  | error exit => exact ⟨middle, rfl, hat', hclear⟩
  | halted reason => exact ⟨middle, rfl, hat', trivial⟩

/-- Reading what both machines have. -/
theorem ignores_read {f : Machine World → α}
    (hread : ∀ machine heap, extra.At known number machine heap →
      f { machine with heap } = f machine ∧ Good (f machine)) :
    Ignores extra known number (Step.read f) Good := by
  intro machine heap hat
  obtain ⟨hsame, hgood⟩ := hread machine heap hat
  exact ⟨heap, congrArg (fun value => (Outcome.ok value, _)) hsame, hat, hgood⟩

theorem ignores_readHeap {f : Heap → α}
    (hread : ∀ left right, extra.Twins left right →
      f right = f left ∧ Good (f left)) :
    Ignores extra known number (readHeap f) Good :=
  ignores_read fun machine heap hat => hread machine.heap heap hat.twins

theorem ignores_withHeap {f : Heap → α × Heap}
    (hchange : ∀ left right, extra.Twins left right →
      (f right).1 = (f left).1 ∧ extra.Twins (f left).2 (f right).2 ∧
        Good (f left).1) :
    Ignores extra known number (withHeap f) Good := by
  intro machine heap hat
  obtain ⟨hsame, htwins, hgood⟩ := hchange machine.heap heap hat.twins
  exact ⟨(f heap).2, congrArg (fun value => (Outcome.ok value, _)) hsame,
    { hat with twins := htwins }, hgood⟩

theorem Ignores.mapOutcome {f : Outcome Exit α → Outcome Exit β}
    (hbody : Ignores extra known number body Good)
    (hclear : ∀ outcome : Outcome Exit α, outcome.Clear extra Good →
      (f outcome).Clear extra Then) :
    Ignores extra known number (body.mapOutcome f) Then := by
  intro machine heap hat
  obtain ⟨after, hsame, hat', hend⟩ := hbody machine heap hat
  refine ⟨after, ?_, hat', hclear _ hend⟩
  unfold Run.mapOutcome
  rw [hsame]

/-- What an attempt hands on. -/
def ClearEnd (extra : Extra) (Good : α → Prop) : Except Exit α → Prop
  | .ok value => Good value
  | .error exit => ∀ value ∈ exit.values, extra.Clear value

theorem Ignores.attempt (hbody : Ignores extra known number body Good) :
    Ignores extra known number (Step.attempt body) (ClearEnd extra Good) := by
  rw [attempt_eq_mapOutcome]
  refine hbody.mapOutcome fun outcome hclear => ?_
  cases outcome <;> exact hclear

theorem Ignores.located (span : Span)
    (hbody : Ignores extra known number body Good) :
    Ignores extra known number (located span body) Good := by
  rw [located_eq_mapOutcome]
  refine hbody.mapOutcome fun outcome hclear => ?_
  cases outcome with
  | error exit =>
      intro value hvalue
      apply hclear value
      unfold Exit.values at hvalue ⊢
      rwa [exit.reason_orSpan span] at hvalue
  | _ => exact hclear

theorem Ignores.catchReturn {body : Run World Value}
    (hbody : Ignores extra known number body extra.Clear) :
    Ignores extra known number (catchReturn body) extra.Clear := by
  rw [catchReturn_eq_mapOutcome]
  refine hbody.mapOutcome fun outcome hclear => ?_
  cases outcome with
  | error exit =>
      unfold Outcome.returned
      dsimp only
      split
      · next value hreason =>
          exact hclear value (by simp [Exit.values, hreason])
      · exact hclear
  | _ => exact hclear

theorem Ignores.noting (hbody : Ignores extra known number body Good) :
    Ignores extra known number (noting body) Good := by
  intro machine heap hat
  obtain ⟨after, hsame, hat', hclear⟩ := hbody machine heap hat
  refine ⟨after, ?_⟩
  unfold Run.noting
  rw [hsame]
  rcases hend : body machine with ⟨outcome, stopped⟩
  rw [hend] at hat' hclear
  cases outcome with
  | error exit =>
      refine ⟨rfl, hat', fun value hvalue => hclear value ?_⟩
      unfold Exit.values at hvalue ⊢
      rwa [stopped.calls.reason_attach exit] at hvalue
  | _ => exact ⟨rfl, hat', hclear⟩

/-- Run code between a change of the machine and its undoing. -/
def around (enter : Machine World → Machine World)
    (leave : Machine World → Machine World → Machine World)
    (body : Run World α) : Run World α :=
  fun machine =>
    ((body (enter machine)).1, leave machine (body (enter machine)).2)

/-- Neither change looks at the name. -/
theorem Ignores.around {other : Nat} {enter : Machine World → Machine World}
    {leave : Machine World → Machine World → Machine World}
    (hbody : Ignores extra known other body Good)
    (henter : ∀ machine heap, extra.At known number machine heap →
      ∃ entered, enter { machine with heap } =
          { enter machine with heap := entered } ∧
        extra.At known other (enter machine) entered)
    (hleave : ∀ machine heap stopped after,
      extra.At known number machine heap → extra.At known other stopped after →
        leave { machine with heap } { stopped with heap := after } =
            { leave machine stopped with heap := after } ∧
          extra.At known number (leave machine stopped) after) :
    Ignores extra known number (around enter leave body) Good := by
  intro machine heap hat
  obtain ⟨entered, hentered, hinner⟩ := henter machine heap hat
  obtain ⟨after, hsame, hat', hclear⟩ := hbody _ entered hinner
  obtain ⟨hleft, hend⟩ := hleave machine heap _ after hat hat'
  exact ⟨after, by simp only [Run.around, hentered, hsame, hleft], hend, hclear⟩

/-- Code in a new innermost frame, which is not the frame of the globals. -/
theorem Ignores.inFrame {content : Container Value}
    (hbody : Ignores extra known number body Good)
    (hcontent : content.All extra.Clear) :
    Ignores extra known number (inFrame content body) Good := by
  change Ignores extra known number (Run.around (fun machine =>
    { machine with
      env := (machine.heap.pushNew content machine.env).1
      heap := (machine.heap.pushNew content machine.env).2 })
    (fun _ after => { after with env := after.env.tail }) body) Good
  apply hbody.around
  · intro machine heap hat
    obtain ⟨hscope, htwins⟩ := hat.twins.pushNew hcontent machine.env
    refine ⟨(heap.pushNew content machine.env).2, ?_,
      { hat with twins := htwins, admits := fun hframe => ?_ }⟩
    · simp only [hscope]
    · rcases List.mem_cons.mp hframe with hnew | hold
      · exact absurd hnew (Nat.ne_of_lt hat.twins.frame_lt)
      · exact hat.admits hold
  · exact fun _ _ _ _ _ hat => ⟨rfl, { hat with admits := hat.admits.tail }⟩

/-- Code in another scope of the same program. -/
theorem Ignores.inChain {scope : Chain}
    (hbody : Ignores extra known number body Good)
    (hscope : extra.Admits number scope) :
    Ignores extra known number (inChain scope body) Good := by
  change Ignores extra known number (Run.around
    (fun machine => { machine with env := scope })
    (fun machine after => { after with env := machine.env }) body) Good
  apply hbody.around
  · exact fun _ heap hat => ⟨heap, rfl, { hat with admits := hscope }⟩
  · exact fun _ _ _ _ hat hat' => ⟨rfl, { hat' with admits := hat.admits }⟩

/-- Code of another program in a scope of its own. -/
theorem Ignores.inScope {scope : Chain} {other : Nat}
    (hbody : Ignores extra known other body Good)
    (hscope : extra.Admits other scope) :
    Ignores extra known number (inProgram other (Run.inChain scope body))
      Good := by
  change Ignores extra known number (Run.around
    (fun machine => { machine with program := other, env := scope })
    (fun machine after =>
      { after with program := machine.program, env := machine.env }) body) Good
  apply hbody.around
  · exact fun _ heap hat =>
      ⟨heap, rfl, { hat with program_eq := rfl, admits := hscope }⟩
  · exact fun _ _ _ _ hat hat' => ⟨rfl,
      { hat' with program_eq := hat.program_eq, admits := hat.admits }⟩

/-- Both machines have the same active calls, so a call finds room on both or
on neither. -/
theorem Ignores.inCall (hbody : Ignores extra known number body Good)
    (call : ActiveCall) :
    Ignores extra known number (inCall call body) Good := by
  intro machine heap hat
  cases hpush : machine.calls.push call with
  | error cause =>
      have hpush' : { machine with heap }.calls.push call = .error cause := hpush
      rw [inCall_of_error hpush, inCall_of_error hpush']
      refine ⟨heap, rfl, hat, fun value hvalue => ?_⟩
      unfold CallStack.push at hpush
      split at hpush
      · cases hpush
        exact absurd hvalue List.not_mem_nil
      · cases hpush
  | ok calls =>
      have hpush' : { machine with heap }.calls.push call = .ok calls := hpush
      rw [inCall_of_ok hpush, inCall_of_ok hpush']
      obtain ⟨after, hsame, hat', hclear⟩ :=
        hbody.noting { machine with calls } heap { hat with }
      refine ⟨after, ?_, { hat' with }, hclear⟩
      exact congrArg (fun result => (result.1,
        { result.2 with calls := result.2.calls.pop })) hsame

theorem ignores_program : Ignores extra known number Run.program
    fun program => number = extra.program →
      program.mentions extra.name = false := by
  have hrow : Ignores extra known number
      (Step.read fun machine => machine.programs[machine.program]?)
      fun row => ∀ program, row = some program → number = extra.program →
        program.mentions extra.name = false := by
    refine ignores_read fun machine heap hat => ⟨rfl, ?_⟩
    rintro program hprogram rfl
    rw [hat.program_eq] at hprogram
    exact hat.silent program hprogram
  exact hrow.bind fun row hrow => ignores_found hrow

/-- Only code that mentions the name may ask for it, and other code does not
have the frame in its scope. -/
theorem ignores_lookup {key : Key}
    (hkey : number = extra.program → key ≠ .badge extra.name) :
    Ignores extra known number (lookup key) extra.Clear := by
  have hfound : Ignores extra known number (lookup? key)
      fun found => ∀ value, found = some value → extra.Clear value := by
    refine ignores_read fun machine heap hat => ⟨?_, fun value hvalue => ?_⟩
    · exact hat.twins.lookup?_eq fun hframe => hkey (hat.admits hframe)
    · exact hat.twins.lookup?_clear hvalue
  refine hfound.bind fun found hfound => ?_
  cases found with
  | some value => exact ignores_pure (hfound value rfl)
  | none => exact ignores_fault rfl

theorem ignores_bindKey (key : Key) {value : Value}
    (hvalue : extra.Clear value) :
    Ignores extra known number (Run.bind key value) fun _ => True := by
  intro machine heap hat
  obtain ⟨hscope, htwins⟩ := hat.twins.bind machine.env key hvalue
  refine ⟨(heap.bind machine.env key value).2, ?_,
    { hat with twins := htwins, admits := ?_ }, trivial⟩
  · exact congrArg (fun env => (Outcome.ok (),
      { machine with env, heap := (heap.bind machine.env key value).2 })) hscope
  · intro hframe
    apply hat.admits
    cases hscope : machine.env with
    | nil =>
        change extra.frame ∈ Chain.frames
          (machine.heap.bind machine.env key value).1 at hframe
        rw [hscope] at hframe
        exact absurd (List.mem_singleton.mp hframe)
          (Nat.ne_of_lt hat.twins.frame_lt)
    | cons link outer =>
        change extra.frame ∈ Chain.frames
          (machine.heap.bind machine.env key value).1 at hframe
        rwa [hscope] at hframe

theorem ignores_newArray {content : Container Value}
    (hcontent : content.All extra.Clear) :
    Ignores extra known number (newArray content) extra.Clear :=
  ignores_withHeap fun _ _ htwins => htwins.addArray hcontent

theorem ignores_newNative (name : String) :
    Ignores extra known number (newNative name) extra.Clear :=
  ignores_withHeap fun _ _ htwins =>
    have hadded := htwins.addFunction ⟨name, .native, .empty⟩
      Container.all_empty trivial
    ⟨congrArg Value.function hadded.1, hadded.2, trivial⟩

theorem ignores_newClosure (name : String) (definition : FuncId) :
    Ignores extra known number (newClosure name definition) extra.Clear := by
  intro machine heap hat
  obtain rfl := hat.program_eq
  obtain ⟨hid, hadded⟩ := hat.twins.addFunction
    ⟨name, .script machine.program definition machine.env, .empty⟩
    Container.all_empty hat.admits
  exact ⟨_, congrArg (fun id => (Outcome.ok (Value.function id), _)) hid,
    { hat with twins := hadded }, trivial⟩

/-- What composing two values may lead to. -/
def ClearResult (extra : Extra) : Except Cause Value → Prop
  | .ok value => extra.Clear value
  | .error cause => cause.Bare

theorem ignores_compose {left right : Value} (hleft : extra.Clear left)
    (hright : extra.Clear right) :
    Ignores extra known number (compose left right) (ClearResult extra) := by
  intro machine heap hat
  rw [compose_apply, compose_apply]
  rcases hat.twins.compose hleft hright with
    ⟨cause, hnone, hnone'⟩ | ⟨value, made, made', hmade, hmade', htwins, hclear⟩
  · simp only [hnone, hnone']
    exact ⟨heap, rfl, hat, bare_heapCompose hnone⟩
  · simp only [hmade, hmade']
    exact ⟨made', rfl, { hat with twins := htwins }, hclear⟩

theorem ignores_clearResult {result : Except Cause Value}
    (hresult : ClearResult extra result) :
    Ignores extra known number (ofExcept result) extra.Clear := by
  cases result with
  | ok value => exact ignores_pure hresult
  | error cause => exact ignores_fault hresult

theorem ignores_textOf {value : Value} (hvalue : extra.Clear value) :
    Ignores extra known number (textOf value) fun _ => True := by
  have hread : Ignores extra known number
      (readHeap fun heap => heap.text? value) fun _ => True :=
    ignores_readHeap fun _ _ htwins => ⟨htwins.text?_eq hvalue, trivial⟩
  refine hread.bind fun text _ => ignores_ofOutcome _ ?_
  cases text <;> trivial

end Run

end ChainScript
