import ChainScript.Operators
import ChainScript.Proofs.Nesting

/-
The operators `==` and `!=` against the equality of values.

The operators go by the kinds of their operands and compare numbers and strings
by their order.  The equality of values takes any two values and goes into
arrays.  Wherever the operators apply, they say what the equality says, and
they refuse just the values that have nothing to do with each other.
-/

namespace ChainScript

/-- A whole number and a float, in either order. -/
def Value.MixedNumbers : Value → Value → Prop
  | .int _, .float _ | .float _, .int _ => True
  | _, _ => False

/-- Values of different kinds that have nothing to do with each other: null can
be compared with all values, and numbers with each other. -/
structure Value.Unrelated (left right : Value) : Prop where
  kinds : left.kindName ≠ right.kindName
  left_ne_null : left ≠ .null
  right_ne_null : right ≠ .null
  not_mixed : ¬ left.MixedNumbers right

/-- The two operators that ask whether values are equal. -/
def BinaryOp.IsEquality (op : BinaryOp) : Prop :=
  op = .equal ∨ op = .notEqual

section Scalars

/-- The order of two floats, if they have one, seen from the other side. -/
theorem swap_floatOrder (first second : Float.Model.UnpackedFloat) :
    (first.compare second).map Ordering.swap = second.compare first := by
  have hfinite : ∀ (m n : Nat) (e f : Int),
      ((compare e f).then (compare m n)).swap =
        (compare f e).then (compare n m) := by
    intro m n e f
    rw [Ordering.swap_then, ← Std.OrientedOrd.eq_swap,
      ← Std.OrientedOrd.eq_swap]
  rcases first with (_ | _) | _ | (_ | _) | ⟨_ | _, m, e, _⟩ <;>
    rcases second with (_ | _) | _ | (_ | _) | ⟨_ | _, n, f, _⟩
  case finite.negative.finite.negative =>
    exact congrArg some (congrArg Ordering.swap (hfinite m n e f))
  case finite.positive.finite.positive =>
    exact congrArg some (hfinite m n e f)
  all_goals rfl

/-- Floats are equal if their order says so, so either may come first. -/
theorem float_beq_comm (a b : Float) : (a == b) = (b == a) := by
  change (a.toModel.unpack.compare b.toModel.unpack == some .eq) =
    (b.toModel.unpack.compare a.toModel.unpack == some .eq)
  rw [← swap_floatOrder a.toModel.unpack]
  rcases a.toModel.unpack.compare b.toModel.unpack with _ | order
  · rfl
  · cases order <;> rfl

/-- Values are equal if neither comes before the other. -/
theorem compare_beq_eq {α : Type} [Ord α] [Std.LawfulEqOrd α] [BEq α]
    [LawfulBEq α] (a b : α) : (compare a b == .eq) = (a == b) := by
  rw [Bool.eq_iff_iff, beq_iff_eq, beq_iff_eq]
  exact Std.LawfulEqOrd.compare_eq_iff_eq

variable {op : BinaryOp} (hop : op.IsEquality)

include hop

theorem comparison_of_isEquality (order : Ordering) (kind : String)
    (left right : Value) :
    comparison op order kind = equality op (order == .eq) left right := by
  rcases hop with rfl | rfl <;> rfl

theorem intBinary_of_isEquality (a b : Int64) (left right : Value) :
    intBinary op a b = equality op (a == b) left right := by
  have hsame : (a.toInt == b.toInt) = (a == b) := by
    rw [Bool.eq_iff_iff, beq_iff_eq, beq_iff_eq]
    exact Int64.toInt_inj
  have hcompare := comparison_of_isEquality hop
    (compare a.toInt b.toInt) "int" left right
  rw [compare_beq_eq, hsame] at hcompare
  rw [← hcompare]
  rcases hop with rfl | rfl <;> rfl

theorem floatBinary_of_isEquality (a b : Float) (left right : Value) :
    floatBinary op a b = equality op (a == b) left right := by
  rcases hop with rfl | rfl <;> rfl

theorem stringBinary_of_isEquality (a b : String) (left right : Value) :
    stringBinary op a b = equality op (a == b) left right := by
  have hcompare := comparison_of_isEquality hop (compare a b) "str" left right
  rw [compare_beq_eq] at hcompare
  rw [← hcompare]
  rcases hop with rfl | rfl <;> rfl

end Scalars

namespace Heap

variable (heap : Heap) {op : BinaryOp} {left right : Value}

/-- Unrelated values are refused by every operator. -/
theorem binary_of_unrelated (op : BinaryOp)
    (hunrelated : left.Unrelated right) :
    heap.binary op left right = .error (binaryMismatch op left right) := by
  obtain ⟨hkinds, hleft, hright, hmixed⟩ := hunrelated
  cases left <;> cases right
  -- The other pairs are of one kind, or with null, or of numbers.
  all_goals first
    | rfl
    | exact absurd rfl hkinds
    | exact absurd rfl hleft
    | exact absurd rfl hright
    | exact absurd trivial hmixed

/-- Related values are compared by the equality of values. -/
theorem binary_of_related (hop : op.IsEquality)
    (hrelated : ¬ left.Unrelated right) :
    heap.binary op left right =
      match heap.equal? left right with
      | some equal => .ofExcept (equality op equal left right)
      | none => .halted .exhausted := by
  cases left <;> cases right
  case int.int a b =>
    exact congrArg Outcome.ofExcept (intBinary_of_isEquality hop a b _ _)
  case int.float a b =>
    exact congrArg Outcome.ofExcept
      (floatBinary_of_isEquality hop (intToFloat a) b _ _)
  case float.int a b =>
    have hsame := floatBinary_of_isEquality hop a (intToFloat b)
      (.float a) (.int b)
    rw [float_beq_comm] at hsame
    exact congrArg Outcome.ofExcept hsame
  case float.float a b =>
    exact congrArg Outcome.ofExcept (floatBinary_of_isEquality hop a b _ _)
  case str.str a b =>
    exact congrArg Outcome.ofExcept (stringBinary_of_isEquality hop a b _ _)
  case array.array => rcases hop with rfl | rfl <;> rfl
  all_goals first
    | rfl
    | exact absurd ⟨by simp [Value.kindName], nofun, nofun, id⟩ hrelated

end Heap

/-- The operators refuse just the unrelated values, with a type mismatch.  For
all others `==` answers as the equality of values does, and `!=` answers the
opposite.  And the equality of values does answer where no array contains
itself. -/
theorem equality_operators_agree (heap : Heap) (left right : Value) :
    (∀ op : BinaryOp, op.IsEquality →
        ((∃ mismatch,
            heap.binary op left right = .error (.typeMismatch mismatch)) ↔
          left.Unrelated right)) ∧
      (¬ left.Unrelated right →
        let equal := Outcome.ofOption .exhausted (heap.equal? left right)
        heap.binary .equal left right = equal.map .bool ∧
          heap.binary .notEqual left right =
            equal.map fun equal => .bool (!equal)) ∧
      ∀ (store : Store) (programs : Array Program), store.heap = heap →
        store.Sound programs → store.Holds left → store.Holds right →
        (heap.equal? left right).isSome := by
  refine ⟨fun op hop => ⟨?_, fun hunrelated =>
    ⟨_, heap.binary_of_unrelated op hunrelated⟩⟩, fun hrelated => ?_, ?_⟩
  · rintro ⟨mismatch, hmismatch⟩
    by_contra hrelated
    rw [heap.binary_of_related hop hrelated] at hmismatch
    split at hmismatch
    · rcases hop with rfl | rfl <;> cases hmismatch
    · cases hmismatch
  · rw [heap.binary_of_related (.inl rfl) hrelated,
      heap.binary_of_related (.inr rfl) hrelated]
    cases heap.equal? left right <;> exact ⟨rfl, rfl⟩
  · rintro store programs rfl hsound hleft hright
    exact hsound.equal?_isSome hleft hright

/-- A store with an array of two frames, and one of a single frame that has
equal entries.  Both have another array inside. -/
def comparedStore : Store where
  heap := {
    frames := #[
      { entries := [(.index 0, .int 1)] },
      { entries := [(.index 0, .float 1.0)] },
      { entries := [(.badge "b", .int 2)] },
      { entries := [(.index 0, .array [⟨0, 0⟩])] },
      { entries := [(.badge "b", .float 2.0), (.index 0, .array [⟨1, 1⟩])] }] }
  sealed := [4, 3, 2, 1, 0]

theorem comparedStore_sound : comparedStore.Sound #[] where
  frames := by
    intro id
    match id with
    | 0 | 1 | 2 | 3 | 4 =>
        simp [comparedStore, Heap.frame, Store.HoldsAll, Container.All,
          Store.Holds, Chain.frames]
    | _ + 5 => exact fun _ hentry => absurd hentry List.not_mem_nil
  functions := fun _ hfunction => absurd hfunction (Array.not_mem_empty _)
  sealed_lt := by decide
  nodup := by decide
  layered := by
    simp [comparedStore, Heap.frame, Store.Layered, Store.HoldsAll,
      Container.All, Store.Holds, Chain.frames]

/-- Whole numbers and floats are compared as numbers inside of arrays, too. -/
theorem equality_operators_agree_stacked :
    let heap := comparedStore.heap
    let left := .array [⟨3, 3⟩, ⟨2, 2⟩]
    let right := .array [⟨4, 4⟩]
    (heap.equal? left right).isSome ∧
      heap.binary .equal left right = .ok (.bool true) ∧
      heap.binary .notEqual left right = .ok (.bool false) := by
  intro heap left right
  obtain ⟨-, hrelated, hsome⟩ := equality_operators_agree heap left right
  have hheld : comparedStore.Holds left ∧ comparedStore.Holds right := by
    simp [left, right, comparedStore, Store.Holds, Chain.frames]
  have hanswers := hrelated fun hunrelated => hunrelated.kinds rfl
  have hequal : heap.equal? left right = some true := by decide +kernel
  rw [hequal] at hanswers
  exact ⟨hsome _ _ rfl comparedStore_sound hheld.1 hheld.2, hanswers⟩

end ChainScript
