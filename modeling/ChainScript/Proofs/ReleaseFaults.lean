import ChainScript.Proofs.Releases

/-
What becomes of the fault of a release hook.

A body and the release hook after it end in a value, in a fault or in a signal
each, and the statement has one end.  The fault of the hook is the end of the
statement only where the body has come to a value: any early exit of the body
wins over it, which is meant for faults but takes in signals as well.
-/

namespace ChainScript

open Step

variable {World : Type}

namespace Worker

variable {worker : Worker World} {release : FunctionId} {span : Span}
  {body : Run World Value} {machine ended after : Machine World}
  {failure : Exit}

/-- After a value of the body, the failed release is the answer. -/
theorem releasing_of_value {value : Value}
    (hbody : body machine = (.ok value, ended))
    (hrelease : worker (.call release .empty (some span)) ended =
      (.error failure, after)) :
    worker.releasing (some release) span body machine =
      (.error failure, after) := by
  simp only [releasing, bind_apply, Step.attempt, hbody, hrelease]
  rfl

/-- After an early exit of the body, the exit is the answer. -/
theorem releasing_of_exit {exit : Exit}
    (hbody : body machine = (.error exit, ended))
    (hrelease : worker (.call release .empty (some span)) ended =
      (.error failure, after)) :
    worker.releasing (some release) span body machine =
      (.error exit, after) := by
  simp only [releasing, bind_apply, Step.attempt, hbody, hrelease]
  rfl

end Worker

section Statement

variable (natives : Natives World) (depth : Nat)
  {machine ready entered ended after : Machine World} {id : StmtId}
  {program : Program} {acquired : ExprId} {binding : Option String}
  {body : Block} {span : Span} {chain : Chain} {release : FunctionId}
  {bound : Value} {outcome : Outcome Exit Value} {failure : Exit}

/-- A release hook that fails does not undo what the body has done, and its
failure is dropped only in favour of an early exit of the body.  If the body
ends in a fault, the statement ends in this fault; if the body ends in a value,
the statement ends in the failure of the hook.  A signal of the body also wins
over the failure. -/
theorem release_failure_yields (hprogram :
      machine.programs[machine.program]? = some program)
    (hstmt :
      program.stmt? id = some ⟨.resource acquired binding body, span⟩)
    (hacquired : evaluate natives depth (.expr acquired) machine =
      (.ok (.array chain), ready))
    (hhook : ready.heap.hook? chain "release" = some release)
    (hentering : (evaluate natives depth).entering
      (ready.heap.hook? chain "enter") span (.array chain) ready =
        (.ok bound, entered))
    (hbody : (evaluate natives depth).blockWith
      (Worker.resourceBindings binding bound) body entered =
        (outcome, ended))
    (hrelease : evaluate natives depth (.call release .empty (some span))
      ended = (.error failure, after)) :
    let result := evaluate natives (depth + 1) (.stmt id) machine
    (∀ exit cause, outcome = .error exit → exit.reason = .fault cause →
        result = (.error (exit.orSpan span), after)) ∧
      (∀ value, outcome = .ok value →
        result = (.error (failure.orSpan span), after)) ∧
      ∀ exit way, outcome = .error exit → exit.reason = .signal way →
        result = (.error (exit.orSpan span), after) := by
  intro result
  have hresource := Worker.resource_of_entered binding body hacquired hentering
  rw [hhook] at hresource
  have hresult : result = Run.located span
      ((evaluate natives depth).resource acquired binding body span) machine :=
    Worker.evalStmt_apply hprogram hstmt
  have hexit : ∀ exit, outcome = .error exit →
      result = (.error (exit.orSpan span), after) := by
    rintro exit rfl
    rw [hresult, Run.located, mapError, hresource,
      Worker.releasing_of_exit hbody hrelease]
  refine ⟨fun exit _ houtcome _ => hexit exit houtcome, ?_,
    fun exit _ houtcome _ => hexit exit houtcome⟩
  rintro value rfl
  rw [hresult, Run.located, mapError, hresource,
    Worker.releasing_of_value hbody hrelease]

end Statement

/-- A host whose functions all refuse. -/
def refusingHost : Host Unit where
  respond _ _ world := (.exit (.ofCause (.custom "host said no")), world)

/-- The program `with [release: refuse] { … }` with a given expression or
statement as its body. -/
def refusedProgram (body : StmtKind) : Program where
  number := 0
  exprs := #[⟨.ident "refuse", .origin⟩, ⟨.array ⟨0, 0, 1⟩, .origin⟩,
    ⟨.int 5, .origin⟩, ⟨.ident "missing", .origin⟩]
  entries := #[⟨.keyed (.badge "release") ⟨0, 0⟩, .origin⟩]
  stmts := #[⟨body, .origin⟩,
    ⟨.resource ⟨0, 1⟩ none ⟨⟨0, 0, 1⟩, .origin⟩, .origin⟩]
  stmtLists := #[⟨0, 0⟩]

/-- A machine about to run this program. -/
def refusedMachine (body : StmtKind) : Machine Unit :=
  .start (Heap.empty.addFunction ⟨"refuse", .native, .empty⟩).2
    #[refusedProgram body] 0 (.ofPairs [(.badge "refuse", .function 0)]) 1 ()

/-- The same machine when the resource is there. -/
def refusedReady (body : StmtKind) : Machine Unit :=
  (evaluate refusingHost.natives 2 (.expr ⟨0, 1⟩) (refusedMachine body)).2

/-- The body `missing` ends in a fault of its own, and the body `5` in a
value. -/
theorem release_failure_yields_refused :
    (∃ exit after, exit.reason = .fault (.unboundName "missing") ∧
      evaluate refusingHost.natives (2 + 1) (.stmt ⟨0, 1⟩)
        (refusedMachine (.expr ⟨0, 3⟩)) = (.error exit, after)) ∧
      ∃ exit after, exit.reason = .fault (.custom "host said no") ∧
        evaluate refusingHost.natives (2 + 1) (.stmt ⟨0, 1⟩)
          (refusedMachine (.expr ⟨0, 2⟩)) = (.error exit, after) := by
  have hprogram : ∀ body, (refusedMachine body).programs[
      (refusedMachine body).program]? = some (refusedProgram body) :=
    fun _ => rfl
  have hstmt : ∀ body, (refusedProgram body).stmt? ⟨0, 1⟩ =
      some ⟨.resource ⟨0, 1⟩ none ⟨⟨0, 0, 1⟩, .origin⟩, .origin⟩ :=
    fun _ => rfl
  have hacquired : ∀ body, evaluate refusingHost.natives 2 (.expr ⟨0, 1⟩)
      (refusedMachine body) = (.ok (.array [⟨1, 1⟩]), refusedReady body) :=
    fun _ => rfl
  have hhook : ∀ body,
      (refusedReady body).heap.hook? [⟨1, 1⟩] "release" = some 0 :=
    fun _ => rfl
  constructor
  · obtain ⟨hfault, -, -⟩ := release_failure_yields refusingHost.natives 2
      (hprogram (.expr ⟨0, 3⟩)) (hstmt _) (hacquired _) (hhook _) rfl rfl rfl
    exact ⟨_, _, rfl, hfault _ _ rfl rfl⟩
  · obtain ⟨-, hvalue, -⟩ := release_failure_yields refusingHost.natives 2
      (hprogram (.expr ⟨0, 2⟩)) (hstmt _) (hacquired _) (hhook _) rfl rfl rfl
    exact ⟨_, _, rfl, hvalue _ rfl⟩

/-- The body `return 5` wins over a release hook that ends in a fault, and the
fault is lost. -/
theorem return_hides_release_fault :
    let worker := evaluate refusingHost.natives 2
    let machine := refusedMachine (.return (some ⟨0, 2⟩))
    ∃ ready ended after, ∃ left failure answer : Exit,
      worker (.expr ⟨0, 1⟩) machine = (.ok (.array [⟨1, 1⟩]), ready) ∧
      ready.heap.hook? [⟨1, 1⟩] "enter" = none ∧
      ready.heap.hook? [⟨1, 1⟩] "release" = some 0 ∧
      worker.blockWith .empty ⟨⟨0, 0, 1⟩, .origin⟩ ready =
        (.error left, ended) ∧
      left.reason = .signal (.return (.int 5)) ∧
      worker (.call 0 .empty (some .origin)) ended =
        (.error failure, after) ∧
      failure.reason = .fault (.custom "host said no") ∧
      evaluate refusingHost.natives 3 (.stmt ⟨0, 1⟩) machine =
        (.error answer, after) ∧
      answer.reason = .signal (.return (.int 5)) :=
  ⟨_, _, _, _, _, _, rfl, rfl, rfl, rfl, rfl, rfl, rfl, rfl, rfl⟩

end ChainScript
