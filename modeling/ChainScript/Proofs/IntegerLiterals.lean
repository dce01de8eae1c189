import ChainScript.Proofs.Tiling
import Mathlib.Data.Nat.Digits.Defs

/-
Integer literals are exact.

A run of digits denotes a number by the places of its digits, and separators
have no place.  What has been read is always the number that the run denotes up
to there.  So no step on the way to a number in range overflows, however long
the run is, and a number that is too large is refused at the first digit whose
product or sum overflows.
-/

namespace ChainScript

open scoped Computability

/-- The number that a run denotes in base ten.  Separators have no place. -/
def writtenNumber (digits : List Char) : Nat :=
  Nat.ofDigits 10 ((digits.filter (· ≠ '_')).map digitValue).reverse

section WrittenNumbers

variable (digits : List Char)

theorem writtenNumber_append_separator :
    writtenNumber (digits ++ ['_']) = writtenNumber digits := by
  simp [writtenNumber]

/-- One more digit moves the others by one place. -/
theorem writtenNumber_append_digit {c : Char} (hc : c ≠ '_') :
    writtenNumber (digits ++ [c]) = writtenNumber digits * 10 + digitValue c := by
  have hplaces : ((digits ++ [c]).filter (· ≠ '_')).map digitValue =
      (digits.filter (· ≠ '_')).map digitValue ++ [digitValue c] := by
    simp [hc]
  calc writtenNumber (digits ++ [c])
      = Nat.ofDigits 10 (digitValue c ::
          ((digits.filter (· ≠ '_')).map digitValue).reverse) := by
        rw [writtenNumber, hplaces, List.reverse_append,
          List.reverse_singleton, List.singleton_append]
    _ = digitValue c + 10 * writtenNumber digits := Nat.ofDigits_cons
    _ = writtenNumber digits * 10 + digitValue c := by omega

/-- Reading a run one character after the other comes to the number that it
denotes. -/
theorem digitsValue_eq_writtenNumber :
    digitsValue digits = writtenNumber digits := by
  -- The run grows at its end, where reading goes on.
  induction digits using List.reverseRecOn with
  | nil => rfl
  | append_singleton digits c ih =>
      rw [digitsValue_append_singleton, ih]
      by_cases hc : c = '_'
      · subst hc
        rw [writtenNumber_append_separator]
        simp [extendValue]
      · rw [writtenNumber_append_digit digits hc]
        simp [extendValue, hc]

/-- No further digit makes a number smaller. -/
theorem writtenNumber_le_append (after : List Char) :
    writtenNumber digits ≤ writtenNumber (digits ++ after) := by
  rw [← digitsValue_eq_writtenNumber, ← digitsValue_eq_writtenNumber,
    digitsValue, digitsValue, List.foldl_append]
  exact le_foldl_extendValue after _

end WrittenNumbers

section Steps

/-- Extending a value by a digit in 64 bits is exact: the digit is not below
zero, and neither the product nor the sum wraps around. -/
structure StepsExactly (value : Int64) (c : Char) : Prop where
  digit : c.toNat = '0'.toNat + digitValue c
  scaled : (value * 10).toInt = value.toInt * 10
  added : (value * 10 + Int64.ofNat (digitValue c)).toInt =
    (value * 10).toInt + digitValue c

/-- Extending a value by a digit overflows: the product has no room, or it has
and the sum has none. -/
inductive OverflowsAt (value : Int64) (c : Char) : Prop
  | scaling (hscaled : maxInteger < value.toInt * 10)
  | adding (hscaled : value.toInt * 10 ≤ maxInteger)
      (hadded : maxInteger < value.toInt * 10 + digitValue c)

theorem stepsExactly_of_le {value : Int64} {c : Char} (hc : c.isDigit = true)
    (hvalue : 0 ≤ value.toInt)
    (hrange : value.toInt * 10 + digitValue c ≤ maxInteger) :
    StepsExactly value c := by
  obtain ⟨hlow, hhigh⟩ := Char.isDigit_iff_toNat.mp hc
  have hzero : '0'.toNat = 48 := rfl
  have hnine : '9'.toNat = 57 := rfl
  have hten : (10 : Int64).toInt = 10 := rfl
  have hdigit : c.toNat = '0'.toNat + digitValue c := by
    unfold digitValue
    omega
  have hsmall : digitValue c < 10 := by omega
  unfold maxInteger at hrange
  have hscaled : (value * 10).toInt = value.toInt * 10 := by
    rw [Int64.toInt_mul, hten]
    exact Int.bmod_eq_of_le (by omega) (by omega)
  refine ⟨hdigit, hscaled, ?_⟩
  rw [Int64.toInt_add, hscaled, Int64.toInt_ofNat_of_lt (by omega)]
  exact Int.bmod_eq_of_le (by omega) (by omega)

theorem overflowsAt_of_lt {value : Int64} {c : Char}
    (hlarge : maxInteger < value.toInt * 10 + digitValue c) :
    OverflowsAt value c := by
  by_cases hscaled : value.toInt * 10 ≤ maxInteger
  · exact .adding hscaled hlarge
  · exact .scaling (Int.not_le.mp hscaled)

end Steps

section Reading

variable {digits before : List Char} {value : Int64} {c : Char}

theorem readInteger?_eq_some_iff :
    readInteger? digits = some value ↔ value.toInt = writtenNumber digits := by
  rw [readInteger?_eq, digitsValue_eq_writtenNumber]
  by_cases hrange : writtenNumber digits ≤ maxInteger
  · have hexact : (Int64.ofNat (writtenNumber digits)).toInt =
        writtenNumber digits :=
      Int64.toInt_ofNat_of_lt (Nat.lt_of_le_of_lt hrange (by decide))
    rw [if_pos hrange, Option.some.injEq, ← Int64.toInt_inj, hexact]
    exact eq_comm
  · have hlt := value.toInt_lt
    rw [if_neg hrange]
    unfold maxInteger at hrange
    constructor
    · nofun
    · intro hvalue
      omega

theorem readInteger?_eq_none_iff :
    readInteger? digits = none ↔ maxInteger < writtenNumber digits := by
  rw [readInteger?_eq, digitsValue_eq_writtenNumber]
  by_cases hrange : writtenNumber digits ≤ maxInteger
  · simp [hrange]
  · simp [hrange, Nat.lt_of_not_le hrange]

theorem exists_readInteger? (hrange : writtenNumber digits ≤ maxInteger) :
    ∃ value, readInteger? digits = some value := by
  cases hread : readInteger? digits with
  | none =>
      have hlarge := readInteger?_eq_none_iff.mp hread
      omega
  | some value => exact ⟨value, rfl⟩

/-- A run that is read goes on exactly with a digit, or it is refused there
because of an overflow. -/
theorem readInteger?_append_digit (hread : readInteger? before = some value)
    (hc : c.isDigit = true) :
    StepsExactly value c ∧ readInteger? (before ++ [c]) =
        some (value * 10 + Int64.ofNat (digitValue c)) ∨
      OverflowsAt value c ∧ readInteger? (before ++ [c]) = none := by
  have hvalue := readInteger?_eq_some_iff.mp hread
  have hplain : c ≠ '_' := by
    rintro rfl
    cases hc
  have hnext := writtenNumber_append_digit before hplain
  by_cases hrange : writtenNumber (before ++ [c]) ≤ maxInteger
  · have hsteps : StepsExactly value c :=
      stepsExactly_of_le hc (by omega) (by omega)
    refine .inl ⟨hsteps, readInteger?_eq_some_iff.mpr ?_⟩
    rw [hsteps.added, hsteps.scaled]
    omega
  · exact .inr ⟨overflowsAt_of_lt (by omega),
      readInteger?_eq_none_iff.mpr (Nat.lt_of_not_le hrange)⟩

end Reading

/-- A run of digits is read exactly. -/
structure ReadExactly (digits : List Char) : Prop where
  /-- The value is the number that is written. -/
  exact : ∀ value : Int64,
    readInteger? digits = some value ↔ value.toInt = writtenNumber digits
  /-- Nothing is refused but a number that is too large. -/
  refused : readInteger? digits = none ↔ maxInteger < writtenNumber digits
  /-- On the way to a number in range no digit overflows. -/
  steps : writtenNumber digits ≤ maxInteger →
    ∀ before c after, digits = before ++ c :: after → c ≠ '_' →
      ∃ value, readInteger? before = some value ∧
        value.toInt = writtenNumber before ∧ StepsExactly value c ∧
        readInteger? (before ++ [c]) =
          some (value * 10 + Int64.ofNat (digitValue c))
  /-- A number that is too large is read as far as the digit that overflows. -/
  overflow : maxInteger < writtenNumber digits →
    ∃ before c after value, digits = before ++ c :: after ∧ c ≠ '_' ∧
      readInteger? before = some value ∧
      value.toInt = writtenNumber before ∧ OverflowsAt value c

section Runs

variable {digits : List Char}

theorem isDigit_of_ne_separator {c : Char} (hc : isDigitOrSeparator c = true)
    (hplain : c ≠ '_') : c.isDigit = true := by
  simpa [isDigitOrSeparator, hplain] using hc

theorem exact_steps (hdigits : ∀ c ∈ digits, isDigitOrSeparator c = true)
    (hrange : writtenNumber digits ≤ maxInteger) (before : List Char) (c : Char)
    (after : List Char) (hsplit : digits = before ++ c :: after)
    (hplain : c ≠ '_') :
    ∃ value, readInteger? before = some value ∧
      value.toInt = writtenNumber before ∧ StepsExactly value c ∧
      readInteger? (before ++ [c]) =
        some (value * 10 + Int64.ofNat (digitValue c)) := by
  subst hsplit
  have hnext : writtenNumber (before ++ [c]) ≤ maxInteger := by
    have hle := writtenNumber_le_append (before ++ [c]) after
    rw [List.append_assoc] at hle
    exact Nat.le_trans hle hrange
  have hbefore := writtenNumber_le_append before [c]
  obtain ⟨value, hread⟩ := exists_readInteger? (Nat.le_trans hbefore hnext)
  have hdigit := isDigit_of_ne_separator (hdigits c (by simp)) hplain
  rcases readInteger?_append_digit hread hdigit with hsteps | ⟨-, hnone⟩
  · exact ⟨value, hread, readInteger?_eq_some_iff.mp hread, hsteps⟩
  · have hlarge := readInteger?_eq_none_iff.mp hnone
    omega

theorem exists_overflow (hdigits : ∀ c ∈ digits, isDigitOrSeparator c = true)
    (hlarge : maxInteger < writtenNumber digits) :
    ∃ before c after value, digits = before ++ c :: after ∧ c ≠ '_' ∧
      readInteger? before = some value ∧
      value.toInt = writtenNumber before ∧ OverflowsAt value c := by
  induction digits using List.reverseRecOn with
  | nil => exact absurd hlarge (Nat.not_lt_zero _)
  | append_singleton digits last ih =>
      -- Either the run without its last digit is too large, or that digit
      -- overflows.
      by_cases hfront : maxInteger < writtenNumber digits
      · have hothers : ∀ c ∈ digits, isDigitOrSeparator c = true :=
          fun c hc => hdigits c (List.mem_append_left _ hc)
        obtain ⟨before, c, after, value, rfl, hstep⟩ := ih hothers hfront
        exact ⟨before, c, after ++ [last], value, by simp, hstep⟩
      · obtain ⟨value, hread⟩ := exists_readInteger? (Nat.not_lt.mp hfront)
        have hplain : last ≠ '_' := by
          rintro rfl
          rw [writtenNumber_append_separator] at hlarge
          exact hfront hlarge
        have hdigit := isDigit_of_ne_separator (hdigits last (by simp)) hplain
        rcases readInteger?_append_digit hread hdigit with
          ⟨-, hnext⟩ | ⟨hoverflow, -⟩
        · rw [readInteger?_eq_none_iff.mpr hlarge] at hnext
          cases hnext
        · exact ⟨digits, last, [], value, rfl, hplain, hread,
            readInteger?_eq_some_iff.mp hread, hoverflow⟩

theorem readExactly_of_digits
    (hdigits : ∀ c ∈ digits, isDigitOrSeparator c = true) :
    ReadExactly digits where
  exact _ := readInteger?_eq_some_iff
  refused := readInteger?_eq_none_iff
  steps := exact_steps hdigits
  overflow := exists_overflow hdigits

end Runs

/-- What two runs of digits around a point are behind a dot: the two keys that
are written, or an error if an exponent follows or a key is too large. -/
theorem memberPair_cases {left right exponent : List Char}
    (hleft : left ∈ digitRun) (hright : right ∈ digitRun)
    (hexponent : exponent ∈ 1 + exponentPattern) (start : Nat) :
    let text := left ++ '.' :: (right ++ exponent)
    (∃ first second : Int64, exponent = [] ∧
        first.toInt = writtenNumber left ∧
        second.toInt = writtenNumber right ∧
        memberPair text start =
          .ok (memberTokens left right first second start)) ∨
      (exponent ≠ [] ∨ maxInteger < writtenNumber left ∨
          maxInteger < writtenNumber right) ∧
        memberPair text start =
          .error ⟨⟨start, start + utf8Length text⟩,
            .invalidNumber (String.ofList text)⟩ := by
  intro text
  by_cases hplain : exponent = []
  · subst hplain
    have htext : text = left ++ '.' :: right := by simp [text]
    rw [htext]
    cases hfirst : readInteger? left with
    | none =>
        have hlarge := readInteger?_eq_none_iff.mp hfirst
        exact .inr ⟨.inr (.inl hlarge),
          memberPair_of_refused hleft (.inl hfirst) start⟩
    | some first =>
        cases hsecond : readInteger? right with
        | none =>
            have hlarge := readInteger?_eq_none_iff.mp hsecond
            exact .inr ⟨.inr (.inr hlarge),
              memberPair_of_refused hleft (.inr (.inl hsecond)) start⟩
        | some second =>
            exact .inl ⟨first, second, rfl, readInteger?_eq_some_iff.mp hfirst,
              readInteger?_eq_some_iff.mp hsecond,
              memberPair_of_keys hleft hfirst hsecond
                (any_mark_of_digitRun hright) start⟩
  · have hmarked : ((right ++ exponent).any fun c => c = 'e' || c = 'E') =
        true := by
      rw [List.any_append, any_mark_of_exponent hexponent hplain, Bool.or_true]
    exact .inr ⟨.inl hplain,
      memberPair_of_refused hleft (.inr (.inr hmarked)) start⟩

/-- A run of digits denotes nothing but the integer that is written. -/
theorem int_of_denotes {digits : List Char} {kind : TokenKind}
    (hdenotes : Denotes digits kind) (hdigits : digits ∈ digitRun) :
    ∃ value : Int64, kind = .int value ∧ value.toInt = writtenNumber digits := by
  obtain ⟨shape, hshape, hkind⟩ := hdenotes.kind
  have hinteger : digits ∈ Shape.integer.pattern := hdigits
  obtain rfl := Shape.eq_of_mem_pattern hshape hinteger
  have hkind := hkind 0
  simp only [Lexeme.kind] at hkind
  cases hread : readInteger? digits with
  | none =>
      rw [hread] at hkind
      cases hkind
  | some value =>
      rw [hread] at hkind
      cases hkind
      exact ⟨value, rfl, readInteger?_eq_some_iff.mp hread⟩

/-- A token that stands where a run of digits does is the integer that is
written there. -/
theorem Tiles.int_of_covers {chars digits : List Char} {tokens : List Token}
    {token : Token} (htiles : Tiles false 0 chars tokens)
    (htoken : token ∈ tokens) (hdigits : digits ∈ digitRun)
    (hcovers : token.span.Covers chars digits) :
    ∃ value : Int64, token.kind = .int value ∧
      value.toInt = writtenNumber digits := by
  have hkind : token.kind ≠ .eof := by
    -- The end of the text covers no digit.
    intro heof
    obtain ⟨front, htokens, hfront⟩ := htiles.ended
    rw [htokens] at htoken
    rcases List.mem_append.mp htoken with hother | hlast
    · exact hfront token hother heof
    · obtain rfl := List.mem_singleton.mp hlast
      obtain ⟨before, after, -, hspan⟩ := hcovers
      obtain ⟨hstart, hstop⟩ := Span.mk.inj hspan
      obtain ⟨first, others, rfl, -⟩ := mem_oneOf_mul_kstar.mp hdigits
      have hsize := first.utf8Size_pos
      rw [utf8Length_cons] at hstop
      omega
  obtain ⟨piece, hpiece, hdenotes⟩ := htiles.denoted [] rfl token htoken hkind
  obtain rfl := hpiece.unique hcovers
  exact int_of_denotes hdenotes hdigits

/-- A run of digits and separators of any length is read as the number that it
denotes if that is in range, without an overflow on the way, and is refused
otherwise.  So two member keys that look like a float are taken apart into the
keys that are written, or they are an error, and a token of a script that stands
on a run of digits is the integer that is written there. -/
theorem integer_literals_exact {digits : List Char}
    (hdigits : digits ∈ digitRun) :
    ReadExactly digits ∧
      (∀ right ∈ digitRun, ∀ exponent ∈ 1 + exponentPattern, ∀ start,
        let text := digits ++ '.' :: (right ++ exponent)
        (∃ first second : Int64, exponent = [] ∧
            first.toInt = writtenNumber digits ∧
            second.toInt = writtenNumber right ∧
            memberPair text start =
              .ok (memberTokens digits right first second start)) ∨
          (exponent ≠ [] ∨ maxInteger < writtenNumber digits ∨
              maxInteger < writtenNumber right) ∧
            memberPair text start =
              .error ⟨⟨start, start + utf8Length text⟩,
                .invalidNumber (String.ofList text)⟩) ∧
      ∀ source tokens, lex source = .ok tokens → ∀ token ∈ tokens,
        token.span.Covers source.toList digits →
          ∃ value : Int64, token.kind = .int value ∧
            value.toInt = writtenNumber digits := by
  refine ⟨readExactly_of_digits (all_of_digitRun hdigits), ?_, ?_⟩
  · intro right hright exponent hexponent start
    exact memberPair_cases hdigits hright hexponent start
  · intro source tokens hlex token htoken hcovers
    exact (tiles_of_lexAt hlex).int_of_covers htoken hdigits hcovers

/-- The largest integer is read with zeros and a separator in front of it, and
its last digit does not overflow.  As the first of two keys it is a token of the
script, and with a second key that is larger by one it is an error. -/
theorem integer_literals_exact_largest :
    let digits := "00_9223372036854775807".toList
    let source := "a.00_9223372036854775807.1"
    let tokens : List Token :=
      [⟨.ident "a", ⟨0, 1⟩⟩, ⟨.mark .dot, ⟨1, 2⟩⟩,
        ⟨.int Int64.maxValue, ⟨2, 24⟩⟩, ⟨.mark .dot, ⟨24, 25⟩⟩,
        ⟨.int 1, ⟨25, 26⟩⟩, ⟨.eof, .point 26⟩]
    digits ∈ digitRun ∧ readInteger? digits = some Int64.maxValue ∧
      (∃ value, readInteger? digits.dropLast = some value ∧
        StepsExactly value '7') ∧
      memberPair (digits ++ '.' :: ("9223372036854775808".toList ++ [])) 2 =
        .error ⟨⟨2, 44⟩,
          .invalidNumber "00_9223372036854775807.9223372036854775808"⟩ ∧
      lex source = .ok tokens ∧
      Int64.maxValue.toInt = writtenNumber digits := by
  intro digits source tokens
  have hdigits : digits ∈ digitRun :=
    mem_oneOf_mul_kstar.mpr
      ⟨'0', _, rfl, rfl, List.all_eq_true.mp (by rfl)⟩
  obtain ⟨hread, hpair, htokens⟩ := integer_literals_exact hdigits
  have hlex : lex source = .ok tokens := by decide +kernel
  have hcovers : Span.Covers source.toList ⟨2, 24⟩ digits :=
    ⟨"a.".toList, ".1".toList, by decide, by decide⟩
  have hwritten : Int64.maxValue.toInt = writtenNumber digits := by
    obtain ⟨value, hkind, hvalue⟩ := htokens source tokens hlex
      ⟨.int Int64.maxValue, ⟨2, 24⟩⟩ (by simp [tokens]) hcovers
    cases hkind
    exact hvalue
  have hmax : Int64.maxValue.toInt = maxInteger := by decide
  refine ⟨hdigits, (hread.exact _).mpr hwritten, ?_, ?_, hlex, hwritten⟩
  · obtain ⟨value, hvalue, -, hsteps, -⟩ := hread.steps (by omega)
      digits.dropLast '7' [] (by decide) (by decide)
    exact ⟨value, hvalue, hsteps⟩
  · have hright : "9223372036854775808".toList ∈ digitRun :=
      mem_oneOf_mul_kstar.mpr
        ⟨'9', _, rfl, rfl, List.all_eq_true.mp (by rfl)⟩
    rcases hpair _ hright [] (.inl rfl) 2 with
      ⟨_, second, -, -, hsecond, -⟩ | ⟨-, herror⟩
    · have hlarge : writtenNumber "9223372036854775808".toList = 2 ^ 63 := by
        decide +kernel
      have hlt := second.toInt_lt
      omega
    · rw [herror]
      rfl

end ChainScript
