import ChainScript.Operators

/-
Arithmetic on whole numbers is exact, or it is refused.

The second side of the statements is the exact result, a number without limits.
It is the answer of an operator whenever it has room in 64 bits, and otherwise
the operator overflows.  There is one exception: the remainder of the smallest
number by minus one would have room, but its quotient has none, and it is the
quotient that the operator goes by.
-/

namespace ChainScript

namespace BinaryOp

/-- The operators that calculate with numbers. -/
def IsArithmetic (op : BinaryOp) : Prop :=
  op ∈ [.add, .sub, .mul, .div, .mod]

instance (op : BinaryOp) : Decidable op.IsArithmetic :=
  inferInstanceAs (Decidable (op ∈ _))

/-- The exact result of a calculation, if it has one.  Quotients are cut off
toward zero, and the remainder is what a quotient leaves. -/
def result? (op : BinaryOp) (a b : Int) : Option Int :=
  match op with
  | .add => some (a + b)
  | .sub => some (a - b)
  | .mul => some (a * b)
  | .div => if b = 0 then none else some (a.tdiv b)
  | .mod => if b = 0 then none else some (a - b * a.tdiv b)
  | _ => none

/-- A remainder whose quotient has no room. -/
def Refuses (op : BinaryOp) (a b : Int64) : Prop :=
  op = .mod ∧ a = Int64.minValue ∧ b = -1

instance (op : BinaryOp) (a b : Int64) : Decidable (op.Refuses a b) :=
  inferInstanceAs (Decidable (_ ∧ _ ∧ _))

end BinaryOp

/-- A number has room in 64 bits. -/
theorem inIntRange_iff (n : Int) :
    inIntRange n = true ↔
      -0x8000000000000000 ≤ n ∧ n < 0x8000000000000000 := by
  unfold inIntRange maxInteger
  rw [Bool.and_eq_true, decide_eq_true_iff, decide_eq_true_iff]
  omega

theorem toInt_ofInt_of_inRange {n : Int} (hrange : inIntRange n = true) :
    (Int64.ofInt n).toInt = n := by
  obtain ⟨hlow, hhigh⟩ := (inIntRange_iff n).mp hrange
  exact Int64.toInt_ofInt_of_le hlow hhigh

/-- An exact result without room is an overflow. -/
theorem exactInt_of_not_inRange {operation : String} {n : Int}
    (hrange : inIntRange n = false) :
    exactInt operation n = .error (.integerOverflow operation) := by
  simp [exactInt, hrange]

/-- Only the largest quotient of all has no room. -/
theorem inIntRange_tdiv_iff (a b : Int64) :
    inIntRange (a.toInt.tdiv b.toInt) = true ↔
      ¬ (a = Int64.minValue ∧ b = -1) := by
  have hlow := a.le_toInt
  have hhigh := a.toInt_lt
  have hmin : a = Int64.minValue ↔ a.toInt = -2 ^ 63 := Int64.toInt_inj.symm
  have hone : b = -1 ↔ b.toInt = -1 := Int64.toInt_inj.symm
  rw [inIntRange_iff, hmin, hone]
  have hsize : (a.toInt.tdiv b.toInt).natAbs =
      a.toInt.natAbs / b.toInt.natAbs := Int.natAbs_tdiv a.toInt b.toInt
  by_cases hminus : b.toInt = -1
  · have hquotient : a.toInt.tdiv b.toInt = -a.toInt := by
      rw [hminus, Int.tdiv_neg, Int.tdiv_one]
    omega
  · by_cases hplus : b.toInt = 1
    · rw [hplus, Int.tdiv_one]
      omega
    · -- All other divisors at least halve the size of a number.
      have hhalf : a.toInt.natAbs / b.toInt.natAbs ≤ a.toInt.natAbs / 2 := by
        by_cases hzero : b.toInt = 0
        · simp [hzero]
        · exact Nat.div_le_div_left (by omega) (by omega)
      omega

section Calculation

variable {op : BinaryOp} {a b : Int64}

/-- A calculation with an exact result answers it or overflows. -/
theorem intBinary_of_exact {n : Int}
    (hexact : op.result? a.toInt b.toInt = some n) (hroom : ¬ op.Refuses a b) :
    ∃ operation, intBinary op a b = exactInt operation n := by
  cases op
  case add | sub | mul =>
    cases hexact
    exact ⟨_, rfl⟩
  case div =>
    by_cases hzero : b.toInt = 0
    · simp [BinaryOp.result?, hzero] at hexact
    · simp only [BinaryOp.result?, hzero, ↓reduceIte,
        Option.some.injEq] at hexact
      exact ⟨"division", by simp [intBinary, hzero, hexact]⟩
  case mod =>
    by_cases hzero : b.toInt = 0
    · simp [BinaryOp.result?, hzero] at hexact
    · simp only [BinaryOp.result?, hzero, ↓reduceIte,
        Option.some.injEq] at hexact
      have hquotient := (inIntRange_tdiv_iff a b).mpr fun hboth =>
        hroom ⟨rfl, hboth⟩
      rw [← Int.tmod_def] at hexact
      exact ⟨"remainder", by simp [intBinary, hzero, hquotient, hexact]⟩
  all_goals cases hexact

/-- The remainder without a quotient is an overflow. -/
theorem intBinary_of_refuses (hrefuses : op.Refuses a b) :
    intBinary op a b = .error (.integerOverflow "remainder") := by
  obtain ⟨rfl, rfl, rfl⟩ := hrefuses
  rfl

/-- A calculation without an exact result divides by zero. -/
theorem intBinary_of_exact_none (hop : op.IsArithmetic)
    (hexact : op.result? a.toInt b.toInt = none) :
    (op = .div ∨ op = .mod) ∧ b = 0 ∧
      ∃ cause, intBinary op a b = .error cause ∧
        cause.kind = .divisionByZero := by
  have hzero : b = 0 ↔ b.toInt = 0 := Int64.toInt_inj.symm
  rw [hzero]
  cases op
  case div =>
    have hb : b.toInt = 0 := by simpa [BinaryOp.result?] using hexact
    exact ⟨.inl rfl, hb, .divisionByZero, by simp [intBinary, hb], rfl⟩
  case mod =>
    have hb : b.toInt = 0 := by simpa [BinaryOp.result?] using hexact
    exact ⟨.inr rfl, hb, .moduloByZero, by simp [intBinary, hb], rfl⟩
  case add | sub | mul => cases hexact
  all_goals simp [BinaryOp.IsArithmetic] at hop

/-- The three ways in which a calculation can go, of which exactly one
applies. -/
theorem intBinary_cases (hop : op.IsArithmetic) :
    (∃ n, op.result? a.toInt b.toInt = some n ∧ inIntRange n = true ∧
        ¬ op.Refuses a b ∧ intBinary op a b = .ok (.int (Int64.ofInt n))) ∨
      (∃ n operation, op.result? a.toInt b.toInt = some n ∧
        (inIntRange n = false ∨ op.Refuses a b) ∧
        intBinary op a b = .error (.integerOverflow operation)) ∨
      op.result? a.toInt b.toInt = none ∧ (op = .div ∨ op = .mod) ∧ b = 0 ∧
        ∃ cause, intBinary op a b = .error cause ∧
          cause.kind = .divisionByZero := by
  cases hexact : op.result? a.toInt b.toInt with
  | none => exact .inr (.inr ⟨rfl, intBinary_of_exact_none hop hexact⟩)
  | some n =>
      by_cases hrefuses : op.Refuses a b
      · exact .inr (.inl ⟨n, "remainder", rfl, .inr hrefuses,
          intBinary_of_refuses hrefuses⟩)
      · obtain ⟨operation, hanswer⟩ := intBinary_of_exact hexact hrefuses
        cases hrange : inIntRange n with
        | true =>
            exact .inl ⟨n, rfl, hrange, hrefuses,
              hanswer.trans (exactInt_of_inRange hrange)⟩
        | false =>
            exact .inr (.inl ⟨n, operation, rfl, .inl hrange,
              hanswer.trans (exactInt_of_not_inRange hrange)⟩)

/-- What has no room overflows, and so does a remainder whose quotient has
none. -/
theorem intBinary_overflows_iff (hop : op.IsArithmetic) :
    (∃ operation, intBinary op a b = .error (.integerOverflow operation)) ↔
      (∃ n, op.result? a.toInt b.toInt = some n ∧ inIntRange n = false) ∨
        op.Refuses a b := by
  rcases intBinary_cases (a := a) (b := b) hop with
    ⟨n, hexact, hrange, hrefuses, hanswer⟩ |
    ⟨n, operation, hexact, hwhy, hanswer⟩ |
    ⟨hexact, -, hzero, cause, hanswer, hkind⟩
  · rw [hanswer]
    refine ⟨nofun, ?_⟩
    rintro (⟨other, hother, hout⟩ | hrefused)
    · cases hexact.symm.trans hother
      exact absurd (hrange.symm.trans hout) nofun
    · exact absurd hrefused hrefuses
  · rw [hanswer]
    exact ⟨fun _ => hwhy.imp_left fun hrange => ⟨n, hexact, hrange⟩,
      fun _ => ⟨operation, rfl⟩⟩
  · rw [hanswer]
    constructor
    · rintro ⟨operation, hoverflow⟩
      cases hoverflow
      cases hkind
    · rintro (⟨n, hother, -⟩ | ⟨-, -, hone⟩)
      · exact absurd (hexact.symm.trans hother) nofun
      · exact absurd (hzero.symm.trans hone) (by decide)

/-- Only a divisor of zero is a division by zero. -/
theorem intBinary_dividesByZero_iff (hop : op.IsArithmetic) :
    (∃ cause, intBinary op a b = .error cause ∧
        cause.kind = .divisionByZero) ↔
      (op = .div ∨ op = .mod) ∧ b = 0 := by
  have hdivisor :
      (op = .div ∨ op = .mod) ∧ b = 0 → op.result? a.toInt b.toInt = none := by
    rintro ⟨rfl | rfl, rfl⟩ <;> rfl
  rcases intBinary_cases (a := a) (b := b) hop with
    ⟨n, hexact, -, -, hanswer⟩ | ⟨n, operation, hexact, -, hanswer⟩ |
    ⟨-, hdivides, hzero, cause, hanswer, hkind⟩
  · rw [hanswer]
    exact ⟨nofun, fun hboth =>
      absurd (hexact.symm.trans (hdivisor hboth)) nofun⟩
  · rw [hanswer]
    refine ⟨?_, fun hboth => absurd (hexact.symm.trans (hdivisor hboth)) nofun⟩
    rintro ⟨_, hcause, hkind⟩
    cases hcause
    cases hkind
  · rw [hanswer]
    exact ⟨fun _ => ⟨hdivides, hzero⟩, fun _ => ⟨cause, rfl, hkind⟩⟩

end Calculation

/-- A number is refused exactly if it has no room. -/
theorem exactInt_overflows_iff (operation : String) (n : Int) :
    (∃ named, exactInt operation n = .error (.integerOverflow named)) ↔
      inIntRange n = false := by
  cases hrange : inIntRange n with
  | true =>
      rw [exactInt_of_inRange hrange]
      exact ⟨nofun, nofun⟩
  | false =>
      rw [exactInt_of_not_inRange hrange]
      exact ⟨fun _ => rfl, fun _ => ⟨operation, rfl⟩⟩

theorem Outcome.ofExcept_eq_error_iff {ε α : Type} {result : Except ε α}
    {failure : ε} :
    Outcome.ofExcept result = .error failure ↔ result = .error failure := by
  cases result <;> simp [Outcome.ofExcept]

/-- Calculations with whole numbers answer the exact result whenever it has
room, and overflow exactly when it has none, save that a remainder whose
quotient has no room overflows, too.  Exactly a divisor of zero is a division by
zero.  And a sign is exact, or it overflows. -/
theorem integer_arithmetic_exact (heap : Heap) {op : BinaryOp}
    (hop : op.IsArithmetic) (a b : Int64) :
    let result? := op.result? a.toInt b.toInt
    let answer := heap.binary op (.int a) (.int b)
    let negated := unary .neg (.int a)
    (∀ n, result? = some n → inIntRange n = true → ¬ op.Refuses a b →
        ∃ r : Int64, r.toInt = n ∧ answer = .ok (.int r)) ∧
      ((∃ operation, answer = .error (.integerOverflow operation)) ↔
        (∃ n, result? = some n ∧ inIntRange n = false) ∨ op.Refuses a b) ∧
      ((∃ cause, answer = .error cause ∧ cause.kind = .divisionByZero) ↔
        (op = .div ∨ op = .mod) ∧ b = 0) ∧
      (inIntRange (-a.toInt) = true →
        ∃ r : Int64, r.toInt = -a.toInt ∧ negated = .ok (.int r)) ∧
      ((∃ operation, negated = .error (.integerOverflow operation)) ↔
        inIntRange (-a.toInt) = false) := by
  intro result? answer negated
  have hanswer : answer = .ofExcept (intBinary op a b) := rfl
  simp only [hanswer, Outcome.ofExcept_eq_error_iff]
  refine ⟨?_, intBinary_overflows_iff hop, intBinary_dividesByZero_iff hop, ?_,
    exactInt_overflows_iff "negation" (-a.toInt)⟩
  · intro n hexact hrange hrefuses
    obtain ⟨operation, hcalculated⟩ := intBinary_of_exact hexact hrefuses
    rw [exactInt_of_inRange hrange] at hcalculated
    exact ⟨Int64.ofInt n, toInt_ofInt_of_inRange hrange,
      congrArg Outcome.ofExcept hcalculated⟩
  · intro hrange
    exact ⟨Int64.ofInt (-a.toInt), toInt_ofInt_of_inRange hrange,
      exactInt_of_inRange hrange⟩

/-- Quotients are cut off toward zero, also of the smallest number. -/
theorem integer_arithmetic_exact_cutOff :
    ∃ r : Int64, r.toInt = -4611686018427387904 ∧
      Heap.empty.binary .div (.int Int64.minValue) (.int 2) =
        .ok (.int r) := by
  have hop : BinaryOp.div.IsArithmetic := by decide
  exact (integer_arithmetic_exact .empty hop Int64.minValue 2).1 _ rfl
    (by decide) (by decide)

/-- Not every exact result with room is answered: the remainder of the smallest
number by minus one is zero. -/
theorem remainder_refused :
    ¬ ∀ (op : BinaryOp) (a b : Int64) (n : Int), op.IsArithmetic →
      op.result? a.toInt b.toInt = some n → inIntRange n = true →
        ∃ r : Int64, r.toInt = n ∧
          Heap.empty.binary op (.int a) (.int b) = .ok (.int r) := by
  intro hexact
  obtain ⟨r, _, hanswer⟩ :=
    hexact .mod Int64.minValue (-1) 0 (by decide) (by decide) (by decide)
  have hrefused : Heap.empty.binary .mod (.int Int64.minValue) (.int (-1)) =
      .error (.integerOverflow "remainder") := rfl
  rw [hrefused] at hanswer
  cases hanswer

end ChainScript
