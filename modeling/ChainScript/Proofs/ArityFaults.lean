import ChainScript.Proofs.ContainerLaws
import ChainScript.Proofs.SafeOperations
import ChainScript.ScriptText

/-
What is said about a function whose arguments do not fit.

A fault about arguments carries a text for its function.  It takes the empty
one for that of a function without a name, is about nothing then and says that
the function is anonymous.  A call hands over the label of the function, which
is never empty, so that the fault of a function without a name is about the
label as if it were a name.
-/

namespace ChainScript

open Step

theorem functionLabel_of_ne {name : String} (hname : name ≠ "") :
    functionLabel name = name := by
  simp [functionLabel, String.isEmpty_iff, hname]

theorem functionLabel_ne_empty (name : String) : functionLabel name ≠ "" := by
  by_cases hname : name = ""
  · subst hname
    decide
  · rwa [functionLabel_of_ne hname]

/-- The fault names a function that has a name, as its subject and in the value
that a recovering block gets.  Of a function without a name it has no subject
and no entry for one, and says that the function is anonymous. -/
structure Cause.NamesFunction (name : String) (cause : Cause) : Prop where
  subject : cause.subject? = if name = "" then none else some name
  entry : ∀ {World : Type} (machine : Machine World), ∃ chain after,
    Worker.caughtValue cause machine = (.ok (.array chain), after) ∧
      after.heap.lookup? chain (.badge "name") =
        if name = "" then none else some (.str name)
  message : name = "" →
    ∃ detail, cause.message = "anonymous function:" ++ detail

/-- A new array shows what it is made of. -/
theorem Heap.lookup?_addArray (heap : Heap) (content : Container Value) :
    ∃ chain, (heap.addArray content).1 = .array chain ∧
      ∀ key, (heap.addArray content).2.lookup? chain key =
        content.get? key := by
  refine ⟨[⟨heap.nextLink, heap.frames.size⟩], rfl, fun key => ?_⟩
  have hframe : (heap.addArray content).2.frame heap.frames.size = content :=
    heap.frame_addFrame_self content
  simp only [lookup?, resolve?, Chain.frames, List.map_cons, List.map_nil,
    resolveIn, hframe]
  cases content.get? key <;> rfl

namespace Cause

variable {cause : Cause} {content : Container Value}

/-- A fault is described to a recovering block by a new array. -/
theorem caughtValue_of_described {World : Type}
    (hcaught : cause.caught = .described content) (machine : Machine World) :
    ∃ chain after,
      Worker.caughtValue cause machine = (.ok (.array chain), after) ∧
        ∀ key, after.heap.lookup? chain key = content.get? key := by
  obtain ⟨chain, hchain, hlookup⟩ := machine.heap.lookup?_addArray content
  refine ⟨chain, { machine with heap := (machine.heap.addArray content).2 }, ?_,
    hlookup⟩
  unfold Worker.caughtValue
  rw [hcaught, ← hchain]
  rfl

section Arity

variable (function name : String) (issue : ArityIssue)

theorem subject?_arity :
    (arity function issue).subject? =
      if function = "" then none else some function := by
  simp [subject?, String.isEmpty_iff]

/-- The description has an entry for the subject. -/
theorem caught_arity :
    ∃ content, (arity function issue).caught = .described content ∧
      content.get? (.badge "name") =
        ((arity function issue).subject?.map Value.str) := by
  refine ⟨_, rfl, ?_⟩
  rw [Container.get?_ofPairs]
  cases (arity function issue).subject? with
  | none => simp [valueAt?]
  | some subject => simp [valueAt?]

theorem message_arity_empty :
    (arity "" issue).message = "anonymous function: " ++ issue.detail :=
  rfl

theorem message_arity_of_ne (hfunction : function ≠ "") :
    (arity function issue).message =
      "`" ++ function ++ "`: " ++ issue.detail :=
  if_neg (mt String.isEmpty_iff.mp hfunction)

/-- The fault names the function for which it has a text. -/
theorem namesFunction_arity :
    (arity function issue).NamesFunction function where
  subject := subject?_arity function issue
  entry := fun machine => by
    obtain ⟨content, hcaught, hname⟩ := caught_arity function issue
    obtain ⟨chain, after, hvalue, hlookup⟩ :=
      caughtValue_of_described hcaught machine
    refine ⟨chain, after, hvalue, ?_⟩
    rw [hlookup, hname, subject?_arity]
    split <;> rfl
  message := by
    rintro rfl
    refine ⟨" " ++ issue.detail, ?_⟩
    rw [message_arity_empty, ← String.append_assoc]
    rfl

/-- The label of a function is the name of a function that has one, and is taken
for one otherwise. -/
theorem namesFunction_label_iff :
    (arity (functionLabel name) issue).NamesFunction name ↔ name ≠ "" := by
  constructor
  · rintro hnames rfl
    have hsubject := hnames.subject
    rw [subject?_arity, if_neg (functionLabel_ne_empty "")] at hsubject
    cases hsubject
  · intro hname
    rw [functionLabel_of_ne hname]
    exact namesFunction_arity name issue

end Arity

end Cause

section Binding

variable {function : String} {cause : Cause}

theorem sortArguments_error {hasRest : Bool} {args : List (Key × Value)}
    {slots : List Slot} {rest : Container Value}
    (hsort : sortArguments function hasRest args slots rest = .error cause) :
    ∃ issue, cause = .arity function issue := by
  induction args generalizing slots rest with
  | nil => cases hsort
  | cons arg args ih =>
      obtain ⟨key, value⟩ := arg
      cases key with
      | index position => exact ih (map_eq_error hsort)
      | badge name =>
          unfold sortArguments at hsort
          split at hsort
          · exact ih hsort
          · split at hsort
            · exact ih hsort
            · cases hsort
              exact ⟨_, rfl⟩

theorem bindSlots_error {slots : List Slot} {rest : Container Value}
    (hbind : bindSlots function slots rest = .error cause) :
    ∃ issue, cause = .arity function issue := by
  induction slots generalizing rest with
  | nil => cases hbind
  | cons slot slots ih =>
      obtain ⟨param, value⟩ := slot
      unfold bindSlots at hbind
      split at hbind
      · exact ih (map_eq_error hbind)
      · split at hbind
        · exact ih (map_eq_error hbind)
        · exact ih (map_eq_error hbind)
        · cases hbind
          exact ⟨_, rfl⟩

/-- Arguments do not fit for one of the three reasons, and for the function that
they are for. -/
theorem bindArguments_error {params : List Param} {args : Container Value}
    (hbind : bindArguments function params args = .error cause) :
    ∃ issue, cause = .arity function issue := by
  unfold bindArguments at hbind
  dsimp only at hbind
  cases hsort : sortArguments function (params.any Param.rest) args.entries
      (params.map fun param => (param, none)) .empty with
  | error inner =>
      rw [hsort] at hbind
      cases hbind
      exact sortArguments_error hsort
  | ok sorted =>
      rw [hsort] at hbind
      change (if _ then _ else _) = _ at hbind
      split at hbind
      · cases hbind
        exact ⟨_, rfl⟩
      · exact bindSlots_error hbind

end Binding

section Calls

variable {World : Type} {machine : Machine World}

/-- A call whose arguments do not fit ends in that fault, and leaves everything
as it was. -/
theorem Worker.callScript_misfit (worker : Worker World) {name : String}
    {number : Nat} {definition : FuncId} (captured : Chain)
    {args : Container Value} (machine : Machine World) {program : Program}
    {func : FuncDef} {params : List Param} {cause : Cause}
    (hprogram : machine.programs[number]? = some program)
    (hfunc : program.func? definition = some func)
    (hparams : program.params? func.params = some params)
    (hmisfit : bindArguments (functionLabel name) params args = .error cause) :
    worker.callScript name number definition captured args machine =
      (.error (.ofCause cause), machine) := by
  simp only [callScript, bind_apply, read_apply, hprogram, hfunc, hparams,
    hmisfit, Step.found, Outcome.ofOption, ofOutcome_apply, Run.ofExcept,
    Run.fault, fail_apply]

/-- A call that fails at once leaves everything as it was. -/
theorem Run.inCall_fails (call : ActiveCall) {body : Run World Value}
    {exit : Exit} (hroom : machine.calls.depth < machine.calls.limit)
    (hbody : ∀ calls, body { machine with calls } =
      (.error exit, { machine with calls })) :
    ∃ noted : Exit, noted.reason = exit.reason ∧
      Run.inCall call body machine = (.error noted, machine) := by
  have hpush := CallStack.push_of_lt call hroom
  have hpop := CallStack.pop_push hpush
  refine ⟨_, CallStack.reason_attach
    { machine.calls with calls := machine.calls.calls.push call } exit, ?_⟩
  rw [inCall_of_ok hpush]
  simp only [noting, hbody, hpop]

/-- A call of a function of a program whose arguments do not fit fails, and does
nothing else.  Its fault is about the label of the function, which is its
subject and the name in the value that a recovering block gets.  So it names a
function as it should exactly if the function has a name. -/
theorem arity_fault_names_function_iff (natives : Natives World) (depth : Nat)
    {id : FunctionId} {function : Function} {number : Nat}
    {definition : FuncId} {captured : Chain} {program : Program}
    {func : FuncDef} {params : List Param} {args : Container Value}
    {cause : Cause} (site : Option Span)
    (hfunction : machine.heap.function? id = some function)
    (hscript : function.body = .script number definition captured)
    (hprogram : machine.programs[number]? = some program)
    (hfunc : program.func? definition = some func)
    (hparams : program.params? func.params = some params)
    (hroom : machine.calls.depth < machine.calls.limit)
    (hmisfit : bindArguments (functionLabel function.name) params
      (function.bound.expand args.entries) = .error cause) :
    ∃ exit issue,
      evaluate natives (depth + 1) (.call id args site) machine =
        (.error exit, machine) ∧
      exit.reason = .fault cause ∧
      cause = .arity (functionLabel function.name) issue ∧
      cause.message =
        "`" ++ functionLabel function.name ++ "`: " ++ issue.detail ∧
      cause.NamesFunction (functionLabel function.name) ∧
      (cause.NamesFunction function.name ↔ function.name ≠ "") := by
  obtain ⟨issue, rfl⟩ := bindArguments_error hmisfit
  obtain ⟨exit, hreason, hcall⟩ := Run.inCall_fails ⟨function.name, site⟩ hroom
    fun calls => (evaluate natives depth).callScript_misfit captured
      { machine with calls } hprogram hfunc hparams hmisfit
  refine ⟨exit, issue, ?_, hreason, rfl,
    Cause.message_arity_of_ne _ issue (functionLabel_ne_empty _),
    Cause.namesFunction_arity _ issue, Cause.namesFunction_label_iff _ issue⟩
  rw [← hcall, evaluate_succ, perform, Worker.evalCall]
  simp only [bind_apply, Run.readHeap, read_apply, hfunction, Step.found,
    Outcome.ofOption, ofOutcome_apply, hscript]

end Calls

/-- A program with the parameters and the body of `func (a) {}`. -/
def oneParam : Program where
  number := 0
  params := #[⟨"a", none, false, .origin⟩]
  funcs := #[⟨"", ⟨0, 0, 1⟩, ⟨⟨0, 0, 0⟩, .origin⟩, .origin⟩]

/-- A machine with two functions made of it, of which only the second one has a
name. -/
def oneParamMachine : Machine Unit :=
  .start { Heap.empty with functions := #["", "f"].map fun name =>
    { name, body := .script 0 ⟨0, 0⟩ [] } } #[oneParam] 0 .empty 5 ()

/-- Called without an argument, both fail, and only the fault of the second one
names its function. -/
theorem arity_fault_names_function_iff_twoFunctions :
    let worker := evaluate Host.silent.natives 1
    let cause : String → Cause := fun label => .arity label (.missing "a")
    (∃ exit, worker (.call 0 .empty none) oneParamMachine =
        (.error exit, oneParamMachine) ∧
      exit.reason = .fault (cause "<anonymous>") ∧
      ¬ (cause "<anonymous>").NamesFunction "") ∧
    ∃ exit, worker (.call 1 .empty none) oneParamMachine =
        (.error exit, oneParamMachine) ∧
      exit.reason = .fault (cause "f") ∧ (cause "f").NamesFunction "f" := by
  intro worker cause
  let function : String → Function := fun name =>
    { name, body := .script 0 ⟨0, 0⟩ [] }
  have hfirst : oneParamMachine.heap.function? 0 = some (function "") := by
    decide +kernel
  have hsecond : oneParamMachine.heap.function? 1 = some (function "f") := by
    decide +kernel
  have hprogram : oneParamMachine.programs[0]? = some oneParam := by
    decide +kernel
  have hroom : oneParamMachine.calls.depth < oneParamMachine.calls.limit := by
    decide
  have hparams : oneParam.params? ⟨0, 0, 1⟩ = some oneParam.params.toList := by
    decide +kernel
  have hnone : bindArguments (functionLabel "") oneParam.params.toList
      ((function "").bound.expand Container.empty.entries) =
        .error (cause "<anonymous>") := by
    decide +kernel
  have hnamed : bindArguments (functionLabel "f") oneParam.params.toList
      ((function "f").bound.expand Container.empty.entries) =
        .error (cause "f") := by
    decide +kernel
  constructor
  · obtain ⟨exit, _, hcall, hreason, -, -, -, hnames⟩ :=
      arity_fault_names_function_iff Host.silent.natives 0 none hfirst rfl
        hprogram rfl hparams hroom hnone
    exact ⟨exit, hcall, hreason, fun h => hnames.mp h rfl⟩
  · obtain ⟨exit, _, hcall, hreason, -, -, -, hnames⟩ :=
      arity_fault_names_function_iff Host.silent.natives 0 none hsecond rfl
        hprogram rfl hparams hroom hnamed
    exact ⟨exit, hcall, hreason, hnames.mpr (by decide)⟩

/-- A function without a name is called without its argument. -/
def anonymousText : String :=
  "func (a) \x7b a \x7d()"

/-- The same, and the name in the fault is the value of the script. -/
def caughtText : String :=
  "try \x7b func (a) \x7b a \x7d() \x7d catch e \x7b e.name \x7d"

/-- The fault has a subject, it does not say that the function is anonymous, and
the value that is caught has a name. -/
theorem anonymous_fault_has_subject :
    let exit : Exit :=
      { reason := .fault (.arity "<anonymous>" (.missing "a"))
        span := some ⟨0, 16⟩
        trace := some [⟨"<anonymous>", some ⟨0, 16⟩⟩] }
    runText 5 anonymousText = .error (.fault exit) ∧
      exit.reason.subject? = some "<anonymous>" ∧
      exit.reason.message = "`<anonymous>`: missing argument `a`" ∧
      runText 5 caughtText = .ok (some "<anonymous>") := by
  refine ⟨?_, ?_, ?_, ?_⟩ <;> decide +kernel

end ChainScript
