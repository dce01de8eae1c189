/-
Computations that read and change a state and end in one of three ways: with
a result, with an error, or abandoned.  The state is kept in all three cases.

An abandoned computation is no answer at all.  It is told apart from an error
because errors can be recovered from inside a computation, and an abandoned
one never is.
-/

namespace ChainScript

/-- Why a computation was abandoned: its depth allowance ran out, or it looked
for a table row that does not exist. -/
inductive Halt where
  | exhausted
  | dangling
deriving Repr, DecidableEq

/-- How a computation ended. -/
inductive Outcome (ε α : Type) where
  | ok (value : α)
  | error (failure : ε)
  | halted (halt : Halt)
deriving Repr, DecidableEq

namespace Outcome

variable {ε α β : Type}

def map (f : α → β) : Outcome ε α → Outcome ε β
  | .ok value => .ok (f value)
  | .error failure => .error failure
  | .halted halt => .halted halt

/-- The outcome was a result or an error. -/
def Answered : Outcome ε α → Prop
  | .halted _ => False
  | _ => True

/-- An optional result, abandoned when it is missing. -/
def ofOption (halt : Halt) : Option α → Outcome ε α
  | some value => .ok value
  | none => .halted halt

end Outcome

/-- A computation over a state `σ` with errors `ε`. -/
def Step (σ ε α : Type) : Type :=
  σ → Outcome ε α × σ

namespace Step

variable {σ ε α β : Type}

protected def pure (value : α) : Step σ ε α :=
  fun state => (.ok value, state)

protected def bind (first : Step σ ε α) (next : α → Step σ ε β) : Step σ ε β :=
  fun state =>
    match first state with
    | (.ok value, after) => next value after
    | (.error failure, after) => (.error failure, after)
    | (.halted halt, after) => (.halted halt, after)

instance : Monad (Step σ ε) where
  pure := Step.pure
  bind := Step.bind

/-- End with an error. -/
def fail (failure : ε) : Step σ ε α :=
  fun state => (.error failure, state)

/-- Abandon the computation. -/
def halt (reason : Halt) : Step σ ε α :=
  fun state => (.halted reason, state)

/-- The current state. -/
def get : Step σ ε σ :=
  fun state => (.ok state, state)

/-- Read a part of the current state. -/
def read (f : σ → α) : Step σ ε α :=
  fun state => (.ok (f state), state)

/-- Change the state. -/
def modify (f : σ → σ) : Step σ ε Unit :=
  fun state => (.ok (), f state)

/-- Change the state and return a part of the change. -/
def update (f : σ → α × σ) : Step σ ε α :=
  fun state => (.ok (f state).1, (f state).2)

/-- End as a given outcome. -/
def ofOutcome (outcome : Outcome ε α) : Step σ ε α :=
  fun state => (outcome, state)

/-- A row found in a table; a missing row abandons the computation. -/
def found (row : Option α) : Step σ ε α :=
  ofOutcome (.ofOption .dangling row)

/-- Turn an error into an ordinary result.  Abandonment passes through. -/
def attempt (step : Step σ ε α) : Step σ ε (Except ε α) :=
  fun state =>
    match step state with
    | (.ok value, after) => (.ok (.ok value), after)
    | (.error failure, after) => (.ok (.error failure), after)
    | (.halted halt, after) => (.halted halt, after)

/-- Change the error, if the computation ends in one. -/
def mapError (f : ε → ε) (step : Step σ ε α) : Step σ ε α :=
  fun state =>
    match step state with
    | (.error failure, after) => (.error (f failure), after)
    | other => other

/-- Apply `restore` to the final state, however the computation ends. -/
def finally_ (step : Step σ ε α) (restore : σ → σ) : Step σ ε α :=
  fun state => ((step state).1, restore (step state).2)

@[simp] theorem pure_apply (value : α) (state : σ) :
    (pure value : Step σ ε α) state = (.ok value, state) :=
  rfl

theorem bind_apply (first : Step σ ε α) (next : α → Step σ ε β) (state : σ) :
    (first >>= next) state =
      match first state with
      | (.ok value, after) => next value after
      | (.error failure, after) => (.error failure, after)
      | (.halted halt, after) => (.halted halt, after) :=
  rfl

@[simp] theorem fail_apply (failure : ε) (state : σ) :
    (fail failure : Step σ ε α) state = (.error failure, state) :=
  rfl

@[simp] theorem halt_apply (reason : Halt) (state : σ) :
    (halt reason : Step σ ε α) state = (.halted reason, state) :=
  rfl

@[simp] theorem read_apply (f : σ → α) (state : σ) :
    (read f : Step σ ε α) state = (.ok (f state), state) :=
  rfl

@[simp] theorem modify_apply (f : σ → σ) (state : σ) :
    (modify f : Step σ ε Unit) state = (.ok (), f state) :=
  rfl

@[simp] theorem update_apply (f : σ → α × σ) (state : σ) :
    (update f : Step σ ε α) state = (.ok (f state).1, (f state).2) :=
  rfl

@[simp] theorem ofOutcome_apply (outcome : Outcome ε α) (state : σ) :
    (ofOutcome outcome : Step σ ε α) state = (outcome, state) :=
  rfl

/-- Restoring never changes how a computation ends. -/
@[simp] theorem finally_apply (step : Step σ ε α) (restore : σ → σ)
    (state : σ) :
    finally_ step restore state = ((step state).1, restore (step state).2) :=
  rfl

/-- An attempt changes the state as the computation itself does. -/
theorem attempt_snd (step : Step σ ε α) (state : σ) :
    (attempt step state).2 = (step state).2 := by
  unfold attempt
  rcases step state with ⟨outcome, after⟩
  cases outcome <;> rfl

theorem mapError_snd (f : ε → ε) (step : Step σ ε α) (state : σ) :
    (mapError f step state).2 = (step state).2 := by
  unfold mapError
  rcases step state with ⟨outcome, after⟩
  cases outcome <;> rfl

/-- Going on with a change of the result alone. -/
theorem bind_pure_apply (step : Step σ ε α) (f : α → β) (state : σ) :
    (step >>= fun value => pure (f value)) state =
      ((step state).1.map f, (step state).2) := by
  rw [bind_apply]
  rcases step state with ⟨outcome, after⟩
  cases outcome <;> rfl

theorem pure_bind (value : α) (next : α → Step σ ε β) :
    ((pure value : Step σ ε α) >>= next) = next value :=
  rfl

theorem bind_assoc {γ : Type} (first : Step σ ε α) (second : α → Step σ ε β)
    (third : β → Step σ ε γ) :
    (first >>= second) >>= third =
      first >>= fun value => second value >>= third := by
  funext state
  simp only [bind_apply]
  cases first state with
  | mk outcome after => cases outcome <;> rfl

end Step

end ChainScript
