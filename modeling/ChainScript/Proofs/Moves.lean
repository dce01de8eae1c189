import ChainScript.Outcome

/-
What a computation does to its state, however it ends.

The relations of interest are preorders: a computation that does nothing keeps
to them, and so does one computation after another.
-/

namespace ChainScript

namespace Step

variable {σ ε α β : Type} {rel : σ → σ → Prop}

/-- Every state is related to the one that the computation leaves. -/
def Moves (rel : σ → σ → Prop) (step : Step σ ε α) : Prop :=
  ∀ state, rel state (step state).2

theorem Moves.mono {finer : σ → σ → Prop} {step : Step σ ε α}
    (hstep : Moves finer step)
    (hfiner : ∀ before after, finer before after → rel before after) :
    Moves rel step :=
  fun state => hfiner state _ (hstep state)

/-- A computation that leaves every state alone. -/
def Still (step : Step σ ε α) : Prop :=
  ∀ state, (step state).2 = state

theorem still_pure (value : α) : Still (pure value : Step σ ε α) :=
  fun _ => rfl

theorem still_fail (failure : ε) : Still (fail failure : Step σ ε α) :=
  fun _ => rfl

theorem still_halt (reason : Halt) : Still (halt reason : Step σ ε α) :=
  fun _ => rfl

theorem still_read (f : σ → α) : Still (read f : Step σ ε α) :=
  fun _ => rfl

theorem still_ofOutcome (outcome : Outcome ε α) :
    Still (ofOutcome outcome : Step σ ε α) :=
  fun _ => rfl

theorem still_found (row : Option α) : Still (found row : Step σ ε α) :=
  still_ofOutcome _

/-- What leaves every state alone keeps to any reflexive relation. -/
theorem Still.moves [Std.Refl rel] {step : Step σ ε α} (hstill : Still step) :
    Moves rel step := by
  intro state
  rw [hstill state]
  exact Std.Refl.refl state

/-- An early end skips the second computation, and reflexivity is not needed. -/
theorem Moves.bind [Trans rel rel rel] {first : Step σ ε α}
    {next : α → Step σ ε β} (hfirst : Moves rel first)
    (hnext : ∀ value, Moves rel (next value)) : Moves rel (first >>= next) := by
  intro state
  have hrel := hfirst state
  rw [bind_apply]
  cases hend : first state with
  | mk outcome middle =>
      rw [hend] at hrel
      cases outcome with
      | ok value => exact Trans.trans hrel (hnext value middle)
      | error failure => exact hrel
      | halted reason => exact hrel

/-- Catching an error changes the outcome, and not the state. -/
theorem Moves.attempt {step : Step σ ε α} (hstep : Moves rel step) :
    Moves rel (attempt step) := by
  intro state
  rw [attempt_snd]
  exact hstep state

theorem Moves.mapError {f : ε → ε} {step : Step σ ε α}
    (hstep : Moves rel step) : Moves rel (mapError f step) := by
  intro state
  rw [mapError_snd]
  exact hstep state

end Step

end ChainScript
