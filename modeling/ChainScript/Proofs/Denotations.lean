import ChainScript.Proofs.LongestMatch

/-
What the text of a token says.

A text denotes the kind of a token without regard to how it is read: a word
its spelling, a run of digits its value if that is in range, a float the double
nearest to the decimal that is written, and a string the characters between its
quotes with their escapes resolved.  The lexer gives a lexeme the kind that its
text denotes, and refuses a lexeme whose text denotes none.
-/

namespace ChainScript

open scoped Computability

section Strings

/-- The text stands for these characters, where escapes are resolved. -/
inductive Unescaped : List Char → List Char → Prop
  | nil : Unescaped [] []
  | plain {c : Char} {text meant : List Char} (hplain : c ≠ '\\')
      (hrest : Unescaped text meant) : Unescaped (c :: text) (c :: meant)
  | escape {letter c : Char} {text meant : List Char}
      (hletter : escapedChar? letter = some c)
      (hrest : Unescaped text meant) :
      Unescaped ('\\' :: letter :: text) (c :: meant)

theorem Unescaped.unquoteFrom {text meant : List Char}
    (hmeant : Unescaped text meant) (offset : Nat) :
    unquoteFrom offset text = .ok meant := by
  induction hmeant generalizing offset with
  | nil => rfl
  | plain hplain _ ih =>
      rw [unquoteFrom_cons_of_ne _ _ hplain, ih]
      rfl
  | escape hletter _ ih => simp [ChainScript.unquoteFrom, hletter, ih, Except.map]

theorem unescaped_of_unquoteFrom {offset : Nat} {text meant : List Char}
    (hok : unquoteFrom offset text = .ok meant) : Unescaped text meant := by
  fun_induction unquoteFrom offset text generalizing meant with
  | case1 =>
      cases hok
      exact .nil
  | case2 => cases hok
  | case3 => cases hok
  | case4 offset letter after c hletter ih =>
      cases hrest : unquoteFrom (offset + 1 + letter.utf8Size) after with
      | error bad => simp [hrest, Except.map] at hok
      | ok others =>
          simp only [hrest, Except.map, Except.ok.injEq] at hok
          subst hok
          exact .escape hletter (ih hrest)
  | case5 offset c rest hplain ih =>
      cases hrest : unquoteFrom (offset + c.utf8Size) rest with
      | error bad => simp [hrest, Except.map] at hok
      | ok others =>
          simp only [hrest, Except.map, Except.ok.injEq] at hok
          subst hok
          exact .plain hplain (ih hrest)

end Strings

section Numbers

theorem le_foldl_extendValue (digits : List Char) (value : Nat) :
    value ≤ digits.foldl extendValue value := by
  induction digits generalizing value with
  | nil => exact Nat.le_refl _
  | cons c rest ih =>
      refine Nat.le_trans ?_ (ih (extendValue value c))
      unfold extendValue
      split <;> omega

theorem extendBounded?_eq {value : Nat} (c : Char) (hvalue : value ≤ maxInteger) :
    extendBounded? value c =
      if extendValue value c ≤ maxInteger then some (extendValue value c)
      else none := by
  unfold extendBounded? extendValue
  by_cases hseparator : c = '_'
  · simp [hseparator, hvalue]
  · simp only [hseparator, if_false]
    by_cases hscaled : maxInteger < value * 10
    · rw [if_pos hscaled, if_neg (by omega)]
    · rw [if_neg hscaled]
      by_cases hrange : value * 10 + digitValue c ≤ maxInteger
      · rw [if_neg (by omega), if_pos hrange]
      · rw [if_pos (by omega), if_neg hrange]

/-- Keeping the value in range at every step refuses exactly the runs whose
value is out of range. -/
theorem readInteger?_eq (digits : List Char) :
    readInteger? digits =
      if digitsValue digits ≤ maxInteger then
        some (Int64.ofNat (digitsValue digits))
      else none := by
  have hfold : ∀ value ≤ maxInteger, digits.foldlM extendBounded? value =
      if digits.foldl extendValue value ≤ maxInteger then
        some (digits.foldl extendValue value)
      else none := by
    intro value hvalue
    induction digits generalizing value with
    | nil => simp [hvalue]
    | cons c rest ih =>
        rw [List.foldlM_cons, extendBounded?_eq c hvalue, List.foldl_cons]
        by_cases hnext : extendValue value c ≤ maxInteger
        · simpa [hnext] using ih _ hnext
        · have hle := le_foldl_extendValue rest (extendValue value c)
          simp only [hnext, if_false]
          rw [if_neg (by omega)]
          rfl
  rw [readInteger?, hfold 0 (Nat.zero_le _), digitsValue]
  split <;> rfl

/-- Separators do not count. -/
theorem foldl_extendValue_filter (digits : List Char) (value : Nat) :
    (digits.filter (· ≠ '_')).foldl extendValue value =
      digits.foldl extendValue value := by
  induction digits generalizing value with
  | nil => rfl
  | cons c rest ih =>
      by_cases hc : c = '_'
      · subst hc
        simpa [extendValue] using ih value
      · simpa [hc] using ih (extendValue value c)

/-- The text, which may be empty, is an exponent with this value. -/
inductive ExponentOf : List Char → Int → Prop
  | none : ExponentOf [] 0
  | unsigned {mark : Char} {digits : List Char} (hmark : mark = 'e' ∨ mark = 'E')
      (hdigits : digits ∈ oneOf Char.isDigit * (oneOf Char.isDigit)∗) :
      ExponentOf (mark :: digits) (digitsValue digits)
  | plus {mark : Char} {digits : List Char} (hmark : mark = 'e' ∨ mark = 'E')
      (hdigits : digits ∈ oneOf Char.isDigit * (oneOf Char.isDigit)∗) :
      ExponentOf (mark :: '+' :: digits) (digitsValue digits)
  | minus {mark : Char} {digits : List Char} (hmark : mark = 'e' ∨ mark = 'E')
      (hdigits : digits ∈ oneOf Char.isDigit * (oneOf Char.isDigit)∗) :
      ExponentOf (mark :: '-' :: digits) (-(digitsValue digits : Int))

theorem exists_exponentOf {text : List Char}
    (htext : text ∈ 1 + exponentPattern) :
    ∃ power, ExponentOf text power := by
  rcases htext with rfl | htext
  · exact ⟨0, .none⟩
  · obtain ⟨mark, sign, digit, digits, rfl, hmark, hsign, hdigits⟩ :=
      mem_exponentPattern.mp htext
    obtain ⟨hdigit, hothers⟩ := List.forall_mem_cons.mp hdigits
    have hrun : digit :: digits ∈ oneOf Char.isDigit * (oneOf Char.isDigit)∗ :=
      mem_oneOf_mul_kstar.mpr ⟨digit, digits, rfl, hdigit, hothers⟩
    rcases hsign with rfl | rfl | rfl
    · exact ⟨_, .unsigned hmark hrun⟩
    · exact ⟨_, .plus hmark hrun⟩
    · exact ⟨_, .minus hmark hrun⟩

theorem ExponentOf.mem {text : List Char} {power : Int}
    (hpower : ExponentOf text power) : text ∈ 1 + exponentPattern := by
  have hsigned : ∀ {mark : Char} {digits : List Char} (sign : List Char),
      mark = 'e' ∨ mark = 'E' → sign = [] ∨ sign = ['+'] ∨ sign = ['-'] →
      digits ∈ oneOf Char.isDigit * (oneOf Char.isDigit)∗ →
      mark :: (sign ++ digits) ∈ exponentPattern := by
    intro mark digits sign hmark hsign hdigits
    obtain ⟨digit, others, rfl, hdigit, hothers⟩ :=
      mem_oneOf_mul_kstar.mp hdigits
    exact mem_exponentPattern.mpr ⟨mark, sign, digit, others, rfl, hmark, hsign,
      List.forall_mem_cons.mpr ⟨hdigit, hothers⟩⟩
  cases hpower with
  | none => exact .inl rfl
  | unsigned hmark hdigits => exact .inr (hsigned [] hmark (.inl rfl) hdigits)
  | plus hmark hdigits =>
      exact .inr (hsigned ['+'] hmark (.inr (.inl rfl)) hdigits)
  | minus hmark hdigits =>
      exact .inr (hsigned ['-'] hmark (.inr (.inr rfl)) hdigits)

/-- An exponent starts with its mark. -/
theorem ExponentOf.cases_mark {text : List Char} {power : Int}
    (hpower : ExponentOf text power) :
    text = [] ∧ power = 0 ∨ ∃ mark digits, text = mark :: digits ∧
      (mark = 'e' ∨ mark = 'E') ∧ readExponent digits = power := by
  cases hpower with
  | none => exact .inl ⟨rfl, rfl⟩
  | unsigned hmark hdigits =>
      refine .inr ⟨_, _, rfl, hmark, ?_⟩
      obtain ⟨digit, others, rfl, hdigit, -⟩ := mem_oneOf_mul_kstar.mp hdigits
      unfold readExponent
      split
      · next heq =>
          cases heq
          cases hdigit
      · next heq =>
          cases heq
          cases hdigit
      · rfl
  | plus hmark _ => exact .inr ⟨_, _, rfl, hmark, rfl⟩
  | minus hmark _ => exact .inr ⟨_, _, rfl, hmark, rfl⟩

theorem all_of_digitRun {text : List Char} (htext : text ∈ digitRun) :
    ∀ c ∈ text, isDigitOrSeparator c = true := by
  obtain ⟨first, others, rfl, hfirst, hothers⟩ :=
    mem_oneOf_mul_kstar.mp htext
  exact List.forall_mem_cons.mpr ⟨by simp [isDigitOrSeparator, hfirst], hothers⟩

/-- A run of digits ends at the point after it. -/
theorem split_at_point {whole : List Char} (rest : List Char)
    (hwhole : whole ∈ digitRun) :
    (whole ++ '.' :: rest).takeWhile (· ≠ '.') = whole ∧
      (whole ++ '.' :: rest).dropWhile (· ≠ '.') = '.' :: rest := by
  have hall : ∀ c ∈ whole, decide (c ≠ '.') = true := by
    intro c hc
    have hrun := all_of_digitRun hwhole c hc
    rw [decide_eq_true_eq]
    rintro rfl
    cases hrun
  rw [List.takeWhile_append_of_pos hall, List.dropWhile_append_of_pos hall]
  simp

/-- A float literal is read as the double nearest to the decimal that is
written. -/
theorem readFloat?_eq {whole fraction exponent : List Char} {power : Int}
    (hwhole : whole ∈ digitRun) (hfraction : fraction ∈ digitRun)
    (hexponent : ExponentOf exponent power) :
    readFloat? (whole ++ '.' :: (fraction ++ exponent)) =
      nearestFloat? (digitsValue (whole ++ fraction))
        (power - (fraction.filter (· ≠ '_')).length) := by
  obtain ⟨htake, hdrop⟩ := split_at_point (fraction ++ exponent) hwhole
  have hall : ∀ c ∈ fraction, (!(decide (c = 'e') || decide (c = 'E'))) = true := by
    intro c hc
    have hrun := all_of_digitRun hfraction c hc
    by_contra hmark
    simp only [Bool.not_eq_true, Bool.not_eq_false', Bool.or_eq_true,
      decide_eq_true_eq] at hmark
    rcases hmark with rfl | rfl <;> cases hrun
  have hdigits : digitsValue (whole ++ fraction.filter (· ≠ '_')) =
      digitsValue (whole ++ fraction) := by
    simp only [digitsValue, List.foldl_append, foldl_extendValue_filter]
  unfold readFloat?
  simp only [htake, hdrop, List.drop_succ_cons, List.drop_zero]
  rw [List.takeWhile_append_of_pos hall, List.dropWhile_append_of_pos hall]
  rcases hexponent.cases_mark with ⟨rfl, rfl⟩ | ⟨mark, digits, rfl, hmark, rfl⟩
  · simp only [List.takeWhile_nil, List.dropWhile_nil, List.append_nil,
      List.drop_nil, hdigits]
    rfl
  · have hstop : (!(decide (mark = 'e') || decide (mark = 'E'))) ≠ true := by
      rcases hmark with rfl | rfl <;> decide
    have hnone : (mark :: digits).takeWhile
        (fun c => !(decide (c = 'e') || decide (c = 'E'))) = [] :=
      List.takeWhile_cons_of_neg hstop
    have hdropped : (mark :: digits).dropWhile
        (fun c => !(decide (c = 'e') || decide (c = 'E'))) = mark :: digits :=
      List.dropWhile_cons_of_neg hstop
    rw [hnone, hdropped]
    simp only [List.append_nil, List.drop_succ_cons, List.drop_zero, hdigits]

end Numbers

/-- The text denotes the kind of a token. -/
inductive Denotes : List Char → TokenKind → Prop
  | newline : Denotes ['\n'] .newline
  | mark (symbol : Mark) : Denotes symbol.spelling.toList (.mark symbol)
  | keyword (word : Keyword) : Denotes word.spelling.toList (.keyword word)
  | ident {text : List Char} (htext : text ∈ Shape.word.pattern)
      (hfree : ∀ word : Keyword, word.spelling.toList ≠ text) :
      Denotes text (.ident (String.ofList text))
  | int {text : List Char} (htext : text ∈ digitRun)
      (hrange : digitsValue text ≤ maxInteger) :
      Denotes text (.int (Int64.ofNat (digitsValue text)))
  | float {whole fraction exponent : List Char} {power : Int} {value : Float}
      (hwhole : whole ∈ digitRun) (hfraction : fraction ∈ digitRun)
      (hexponent : ExponentOf exponent power)
      (hvalue : nearestFloat? (digitsValue (whole ++ fraction))
        (power - (fraction.filter (· ≠ '_')).length) = some value) :
      Denotes (whole ++ '.' :: (fraction ++ exponent)) (.float value)
  | str {text meant : List Char} (hmeant : Unescaped text meant)
      (htext : text ∈ quotedPart∗) :
      Denotes ('"' :: (text ++ ['"'])) (.str (String.ofList meant))

section Lexemes

theorem wordKind_eq_keyword (word : Keyword) :
    wordKind word.spelling = .keyword word := by
  simp [wordKind, Keyword.ofSpelling?_spelling]

theorem wordKind_eq_ident {name : String}
    (hfree : ∀ word : Keyword, word.spelling ≠ name) :
    wordKind name = .ident name := by
  unfold wordKind
  cases hfound : Keyword.ofSpelling? name with
  | none => rfl
  | some word =>
      exact absurd (Keyword.spelling_of_ofSpelling? hfound) (hfree word)

theorem denotes_wordKind {text : List Char} (htext : text ∈ Shape.word.pattern) :
    Denotes text (wordKind (String.ofList text)) := by
  by_cases hkeyword : ∃ word : Keyword, word.spelling.toList = text
  · obtain ⟨word, rfl⟩ := hkeyword
    rw [String.ofList_toList, wordKind_eq_keyword]
    exact .keyword word
  · have hfree : ∀ word : Keyword, word.spelling.toList ≠ text :=
      fun word hword => hkeyword ⟨word, hword⟩
    rw [wordKind_eq_ident]
    · exact .ident htext hfree
    · rintro word hword
      exact hfree word (by rw [hword, String.toList_ofList])

/-- The lexer gives a lexeme a kind that its text denotes. -/
theorem Lexeme.denotes_of_kind {lexeme : Lexeme} {start : Nat}
    {kind : TokenKind} (hshape : lexeme.text ∈ lexeme.shape.pattern)
    (hkind : lexeme.kind start = .ok kind) : Denotes lexeme.text kind := by
  obtain ⟨shape, text⟩ := lexeme
  cases shape with
  | newline =>
      obtain rfl : text = ['\n'] := hshape
      cases hkind
      exact .newline
  | mark symbol =>
      obtain rfl : text = symbol.spelling.toList := hshape
      cases hkind
      exact .mark symbol
  | word =>
      cases hkind
      exact denotes_wordKind hshape
  | integer =>
      simp only [Lexeme.kind, readInteger?_eq] at hkind
      by_cases hrange : digitsValue text ≤ maxInteger
      · simp only [hrange, if_true, Except.ok.injEq] at hkind
        subst hkind
        exact .int hshape hrange
      · simp [hrange] at hkind
  | decimal =>
      obtain ⟨whole, hwhole, fraction, hfraction, exponent, hexponent, rfl⟩ :=
        mem_decimal_pattern.mp hshape
      obtain ⟨power, hpower⟩ := exists_exponentOf hexponent
      simp only [Lexeme.kind, readFloat?_eq hwhole hfraction hpower] at hkind
      split at hkind
      · next value hvalue =>
        cases hkind
        exact .float hwhole hfraction hpower hvalue
      · cases hkind
  | text =>
      obtain ⟨content, hcontent, rfl⟩ := mem_text_pattern.mp hshape
      simp only [Lexeme.kind, List.drop_succ_cons, List.drop_zero,
        List.dropLast_concat] at hkind
      split at hkind
      · next meant hmeant =>
        cases hkind
        exact .str (unescaped_of_unquoteFrom hmeant) hcontent
      · cases hkind
  | openText => cases hkind

/-- Whatever a text denotes is the kind that the lexer gives it. -/
theorem Denotes.kind {text : List Char} {kind : TokenKind}
    (hdenotes : Denotes text kind) :
    ∃ shape : Shape, text ∈ shape.pattern ∧
      ∀ start, Lexeme.kind ⟨shape, text⟩ start = .ok kind := by
  cases hdenotes with
  | newline => exact ⟨.newline, rfl, fun _ => rfl⟩
  | mark symbol => exact ⟨.mark symbol, rfl, fun _ => rfl⟩
  | keyword word =>
      refine ⟨.word, ?_, fun start => ?_⟩
      · cases word <;>
          exact mem_oneOf_mul_kstar.mpr
            ⟨_, _, rfl, rfl, List.all_eq_true.mp (by rfl)⟩
      · simp [Lexeme.kind, wordKind_eq_keyword]
  | ident htext hfree =>
      refine ⟨.word, htext, fun start => ?_⟩
      simp only [Lexeme.kind]
      rw [wordKind_eq_ident]
      rintro word hword
      exact hfree word (by rw [hword, String.toList_ofList])
  | int htext hrange =>
      exact ⟨.integer, htext, fun start => by
        simp [Lexeme.kind, readInteger?_eq, hrange]⟩
  | float hwhole hfraction hexponent hvalue =>
      refine ⟨.decimal, ?_, fun start => ?_⟩
      · exact mem_decimal_pattern.mpr ⟨_, hwhole, _, hfraction, _,
          hexponent.mem, rfl⟩
      · simp only [Lexeme.kind, readFloat?_eq hwhole hfraction hexponent, hvalue]
  | str hmeant htext =>
      refine ⟨.text, ?_, fun start => ?_⟩
      · exact mem_text_pattern.mpr ⟨_, htext, rfl⟩
      · simp [Lexeme.kind, hmeant.unquoteFrom]

end Lexemes

end ChainScript
