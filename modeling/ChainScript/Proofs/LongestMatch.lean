import ChainScript.Proofs.LexedTexts
import ChainScript.Proofs.LexemePatterns
import Mathlib.Data.List.TakeWhile

/-
The scanner finds the longest match.

What it finds has the shape that it says, and whatever piece of some shape
stands at the start of the text, the scanner finds that piece or one that goes
on after it.  Both together make it the longest match.
-/

namespace ChainScript

open scoped Computability

section Sound

theorem digitRun_takeWhile {first : Char} (rest : List Char)
    (hfirst : first.isDigit = true) :
    (first :: rest).takeWhile isDigitOrSeparator ∈ digitRun := by
  refine mem_oneOf_mul_kstar.mpr
    ⟨first, rest.takeWhile isDigitOrSeparator, ?_, hfirst,
      fun _ hc => List.mem_takeWhile_imp hc⟩
  simp [isDigitOrSeparator, hfirst]

/-- An exponent, taken apart. -/
theorem mem_exponentPattern {text : List Char} :
    text ∈ exponentPattern ↔ ∃ mark sign digit digits,
      text = mark :: (sign ++ digit :: digits) ∧
        (mark = 'e' ∨ mark = 'E') ∧
        (sign = [] ∨ sign = ['+'] ∨ sign = ['-']) ∧
        ∀ c ∈ digit :: digits, c.isDigit = true := by
  constructor
  · rintro ⟨_, ⟨mark, hmark, rfl⟩, _, ⟨sign, hsign, _, hdigits, rfl⟩, rfl⟩
    obtain ⟨digit, digits, rfl, hdigit, hdigits⟩ :=
      mem_oneOf_mul_kstar.mp hdigits
    refine ⟨mark, sign, digit, digits, rfl, by simpa using hmark, ?_,
      List.forall_mem_cons.mpr ⟨hdigit, hdigits⟩⟩
    rcases hsign with rfl | ⟨c, hc, rfl⟩
    · exact .inl rfl
    · exact .inr (by simpa using hc)
  · rintro ⟨mark, sign, digit, digits, rfl, hmark, hsign, hdigits⟩
    obtain ⟨hdigit, hdigits⟩ := List.forall_mem_cons.mp hdigits
    refine ⟨[mark], singleton_mem_oneOf (by simpa using hmark), _,
      Language.append_mem_mul ?_ (mem_oneOf_mul_kstar.mpr
        ⟨digit, digits, rfl, hdigit, hdigits⟩), rfl⟩
    rcases hsign with rfl | rfl | rfl
    · exact .inl rfl
    · exact .inr (singleton_mem_oneOf (by rfl))
    · exact .inr (singleton_mem_oneOf (by rfl))

theorem scanExponent_mem (chars : List Char) :
    scanExponent chars = [] ∨ scanExponent chars ∈ exponentPattern := by
  unfold scanExponent
  split
  · next mark rest =>
    split
    · next hmark =>
      split
      · next first digits =>
        split
        · next hfirst =>
          refine .inr (mem_exponentPattern.mpr ⟨mark, [], first,
            digits.takeWhile Char.isDigit, by simp [hfirst], hmark, .inl rfl,
            List.forall_mem_cons.mpr ⟨hfirst, fun _ hc =>
              List.mem_takeWhile_imp hc⟩⟩)
        · split
          · next hsign =>
            obtain ⟨digit, more, hmore⟩ := List.exists_cons_of_ne_nil hsign.2
            refine .inr (mem_exponentPattern.mpr ⟨mark, [first], digit, more,
              by simp [hmore], hmark, .inr (by simpa using hsign.1), ?_⟩)
            rw [← hmore]
            exact fun _ hc => List.mem_takeWhile_imp hc
          · exact .inl rfl
      · exact .inl rfl
    · exact .inl rfl
  · exact .inl rfl

theorem scanNumber_sound {first : Char} (rest : List Char)
    (hfirst : first.isDigit = true) :
    (scanNumber (first :: rest)).text ∈
      (scanNumber (first :: rest)).shape.pattern := by
  have hwhole := digitRun_takeWhile rest hfirst
  unfold scanNumber
  dsimp only
  split
  · next second after htail =>
    split
    · next hsecond =>
      exact mem_decimal_pattern.mpr ⟨_, hwhole, _,
        digitRun_takeWhile after hsecond, _, scanExponent_mem _, rfl⟩
    · exact hwhole
  · exact hwhole

theorem scanContent_mem (chars : List Char) :
    scanContent chars ∈ quotedPart∗ := by
  fun_induction scanContent chars with
  | case1 => exact Language.nil_mem_kstar _
  | case2 => exact Language.nil_mem_kstar _
  | case3 => exact Language.nil_mem_kstar _
  | case4 letter after hletter ih =>
      have hpart : ['\\', letter] ∈ quotedPart :=
        .inr (Language.append_mem_mul (singleton_mem_oneOf (by rfl))
          (singleton_mem_oneOf (by simpa using hletter)))
      exact append_mem_kstar hpart ih
  | case5 => exact Language.nil_mem_kstar _
  | case6 c rest hbackslash hplain ih =>
      have hpart : [c] ∈ quotedPart := .inl (singleton_mem_oneOf (by simp_all))
      exact append_mem_kstar hpart ih

theorem scanText_sound (chars : List Char) :
    (scanText chars).text ∈ (scanText chars).shape.pattern := by
  unfold scanText
  dsimp only
  split
  · exact mem_text_pattern.mpr ⟨_, scanContent_mem chars, rfl⟩
  · exact mem_openText_pattern.mpr ⟨_, scanContent_mem chars, rfl⟩

/-- What is found has the shape that is said. -/
theorem scan?_sound {chars : List Char} {lexeme : Lexeme}
    (hscan : scan? chars = some lexeme) :
    lexeme.text ∈ lexeme.shape.pattern := by
  unfold scan? at hscan
  split at hscan
  · cases hscan
  · next c rest =>
    split at hscan
    · next hfeed =>
      cases hscan
      subst hfeed
      rfl
    · split at hscan
      · next hword =>
        cases hscan
        exact mem_oneOf_mul_kstar.mpr
          ⟨c, rest.takeWhile isWordPart, rfl, hword,
            fun _ hc => List.mem_takeWhile_imp hc⟩
      · split at hscan
        · next hdigit =>
          cases hscan
          exact scanNumber_sound rest hdigit
        · split at hscan
          · cases hscan
            exact scanText_sound rest
          · obtain ⟨mark, _, rfl⟩ := Option.map_eq_some_iff.mp hscan
            rfl

end Sound

/-- The lexeme begins with the piece, and is of the shape if it ends there. -/
def Lexeme.Extends (lexeme : Lexeme) (shape : Shape) (piece : List Char) :
    Prop :=
  ∃ more, lexeme.text = piece ++ more ∧ (more = [] → lexeme.shape = shape)

section Complete

variable {piece : List Char} (rest : List Char)

theorem Lexeme.extends_append {lexeme : Lexeme} {shape : Shape}
    (more : List Char) (hshape : lexeme.shape = shape)
    (htext : lexeme.text = piece ++ more) : lexeme.Extends shape piece :=
  ⟨more, htext, fun _ => hshape⟩

/-- Punctuation that starts with other punctuation is tried first. -/
theorem scanMark?_spelling (mark : Mark) (rest : List Char) :
    ∃ found, scanMark? (mark.spelling.toList ++ rest) = some found ∧
      Lexeme.Extends ⟨.mark found, found.spelling.toList⟩ (.mark mark)
        mark.spelling.toList := by
  have hsame (hscan : scanMark? (mark.spelling.toList ++ rest) = some mark) :
      ∃ found, scanMark? (mark.spelling.toList ++ rest) = some found ∧
        Lexeme.Extends ⟨.mark found, found.spelling.toList⟩ (.mark mark)
          mark.spelling.toList :=
    ⟨mark, hscan, [], by simp, fun _ => rfl⟩
  cases mark
  case assign | less | greater =>
    cases rest with
    | nil => exact hsame rfl
    | cons c more =>
        by_cases hnext : c = '='
        · subst hnext
          exact ⟨_, rfl, ['='], rfl, nofun⟩
        · exact hsame (by simp [scanMark?, Mark.spelling, hnext])
  case dot =>
    by_cases hnext : ∃ more, rest = '.' :: '.' :: more
    · obtain ⟨more, rfl⟩ := hnext
      exact ⟨.ellipsis, rfl, ['.', '.'], rfl, nofun⟩
    · refine hsame ?_
      change scanMark? ('.' :: rest) = some .dot
      unfold scanMark?
      split
      case h_1 more heq =>
        cases heq
        exact absurd ⟨more, rfl⟩ hnext
      case h_6 heq =>
        cases heq
        rfl
      all_goals next heq => cases heq
  all_goals exact hsame rfl

theorem scanExponent_append (hpiece : piece ∈ exponentPattern) :
    ∃ more, scanExponent (piece ++ rest) = piece ++ more := by
  obtain ⟨mark, sign, digit, digits, rfl, hmark, hsign, hdigits⟩ :=
    mem_exponentPattern.mp hpiece
  refine ⟨rest.takeWhile Char.isDigit, ?_⟩
  have htake : (digit :: (digits ++ rest)).takeWhile Char.isDigit =
      digit :: digits ++ rest.takeWhile Char.isDigit :=
    List.takeWhile_append_of_pos hdigits
  have hdigit := hdigits digit List.mem_cons_self
  rcases hsign with rfl | rfl | rfl
  · simp [scanExponent, hmark, hdigit, htake]
  · simp [scanExponent, hmark, htake]
  · simp [scanExponent, hmark, htake]

/-- The run of digits at the start of a text goes on after each run there. -/
theorem takeWhile_digitRun (hpiece : piece ∈ digitRun) :
    (piece ++ rest).takeWhile isDigitOrSeparator =
        piece ++ rest.takeWhile isDigitOrSeparator ∧
      (piece ++ rest).dropWhile isDigitOrSeparator =
        rest.dropWhile isDigitOrSeparator := by
  obtain ⟨first, others, rfl, hfirst, hothers⟩ :=
    mem_oneOf_mul_kstar.mp hpiece
  have hall : ∀ c ∈ first :: others, isDigitOrSeparator c = true :=
    List.forall_mem_cons.mpr ⟨by simp [isDigitOrSeparator, hfirst], hothers⟩
  exact ⟨List.takeWhile_append_of_pos hall, List.dropWhile_append_of_pos hall⟩

theorem scanNumber_integer (hpiece : piece ∈ digitRun) :
    (scanNumber (piece ++ rest)).Extends .integer piece := by
  obtain ⟨htake, hdrop⟩ := takeWhile_digitRun rest hpiece
  unfold scanNumber
  dsimp only
  rw [htake, hdrop]
  split
  · split
    · exact ⟨_, List.append_assoc _ _ _, by simp⟩
    · exact Lexeme.extends_append _ rfl rfl
  · exact Lexeme.extends_append _ rfl rfl

/-- What follows the fraction is taken as far as an exponent there goes. -/
theorem scanFraction_append
    (hpiece : piece ∈ 1 + exponentPattern) :
    ∃ more, (piece ++ rest).takeWhile isDigitOrSeparator ++
      scanExponent ((piece ++ rest).dropWhile isDigitOrSeparator) =
        piece ++ more := by
  rcases hpiece with rfl | hpiece
  · exact ⟨_, rfl⟩
  · obtain ⟨more, hmore⟩ := scanExponent_append rest hpiece
    obtain ⟨mark, sign, digit, digits, rfl, hmark, -⟩ :=
      mem_exponentPattern.mp hpiece
    have hstop : isDigitOrSeparator mark = false := by
      rcases hmark with rfl | rfl <;> rfl
    refine ⟨more, ?_⟩
    rw [← hmore, List.cons_append, List.takeWhile_cons_of_neg (by simp [hstop]),
      List.dropWhile_cons_of_neg (by simp [hstop])]
    rfl

/-- A text that starts with a digit run starts with a number. -/
theorem scan?_digitRun (hpiece : piece ∈ digitRun) :
    scan? (piece ++ rest) = some (scanNumber (piece ++ rest)) := by
  obtain ⟨c, others, rfl, hc, -⟩ := mem_oneOf_mul_kstar.mp hpiece
  have hfeed : c ≠ '\n' := by
    rintro rfl
    cases hc
  simp [scan?, hfeed, isWordStart_of_isDigit hc, hc]

/-- A digit run, a point and a digit start a number with a fraction. -/
theorem scanNumber_point {first : Char} (after : List Char)
    (hpiece : piece ∈ digitRun) (hfirst : first.isDigit = true) :
    scanNumber (piece ++ '.' :: first :: after) =
      ⟨.decimal, piece ++ '.' ::
        ((first :: after).takeWhile isDigitOrSeparator ++
          scanExponent ((first :: after).dropWhile isDigitOrSeparator))⟩ := by
  have hpoint : isDigitOrSeparator '.' = false := rfl
  obtain ⟨htake, hdrop⟩ := takeWhile_digitRun
    ('.' :: first :: after) hpiece
  rw [List.takeWhile_cons_of_neg (by simp [hpoint]), List.append_nil] at htake
  rw [List.dropWhile_cons_of_neg (by simp [hpoint])] at hdrop
  unfold scanNumber
  rw [htake, hdrop]
  simp only [hfirst, if_true]

theorem scanNumber_decimal (hpiece : piece ∈ Shape.decimal.pattern) :
    (scanNumber (piece ++ rest)).Extends .decimal piece := by
  obtain ⟨whole, hwhole, fraction, hfraction, exponent, hexponent, rfl⟩ :=
    mem_decimal_pattern.mp hpiece
  obtain ⟨more, hmore⟩ := scanFraction_append rest hexponent
  obtain ⟨htake, hdrop⟩ := takeWhile_digitRun
    (exponent ++ rest) hfraction
  obtain ⟨first, others, rfl, hfirst, -⟩ := mem_oneOf_mul_kstar.mp hfraction
  have hnumber := scanNumber_point (others ++ (exponent ++ rest))
    hwhole hfirst
  rw [← List.cons_append, htake, hdrop, List.append_assoc, hmore] at hnumber
  simp only [List.append_assoc, List.cons_append] at hnumber ⊢
  rw [hnumber]
  exact Lexeme.extends_append more rfl (by simp)

theorem scanContent_append (hpiece : piece ∈ quotedPart∗) :
    scanContent (piece ++ rest) = piece ++ scanContent rest := by
  refine kstar_induction (motive := fun piece =>
    scanContent (piece ++ rest) = piece ++ scanContent rest) rfl ?_ hpiece
  intro part text hpart _ ih
  rcases hpart with ⟨c, hc, rfl⟩ | ⟨_, ⟨c, hc, rfl⟩, _, ⟨letter, hletter, rfl⟩, rfl⟩
  · have hplain : c ≠ '\\' ∧ c ≠ '"' ∧ c ≠ '\n' ∧ c ≠ '\r' := by
      simp only [ne_eq, decide_not, Bool.and_eq_true, Bool.not_eq_true',
        decide_eq_false_iff_not] at hc
      exact ⟨hc.1.1.2, hc.1.1.1, hc.1.2, hc.2⟩
    change scanContent (c :: (text ++ rest)) = c :: (text ++ scanContent rest)
    rw [scanContent_cons _ hplain, ih]
  · simp only [decide_eq_true_eq] at hc hletter
    subst hc
    simp [scanContent, hletter, ih]

theorem scanText_text (hpiece : piece ∈ quotedPart∗) :
    scanText (piece ++ '"' :: rest) = ⟨.text, '"' :: (piece ++ ['"'])⟩ := by
  have hquote : scanContent ('"' :: rest) = [] := by
    cases rest <;> simp [scanContent]
  simp [scanText, scanContent_append _ hpiece, hquote]

theorem scanText_openText (hpiece : piece ∈ quotedPart∗) :
    (scanText (piece ++ rest)).Extends .openText ('"' :: piece) := by
  unfold scanText
  rw [scanContent_append rest hpiece]
  dsimp only
  split
  · exact ⟨scanContent rest ++ ['"'], by simp, by simp⟩
  · exact ⟨scanContent rest, by simp, fun _ => rfl⟩

/-- A piece of a shape at the start of a text is found, or one that goes on
after it. -/
theorem scan?_complete {shape : Shape} (hpiece : piece ∈ shape.pattern) :
    ∃ lexeme, scan? (piece ++ rest) = some lexeme ∧
      lexeme.Extends shape piece := by
  cases shape with
  | newline =>
      obtain rfl : piece = ['\n'] := hpiece
      exact ⟨_, rfl, [], rfl, fun _ => rfl⟩
  | mark mark =>
      obtain rfl : piece = mark.spelling.toList := hpiece
      obtain ⟨found, hfound, hextends⟩ := scanMark?_spelling mark rest
      refine ⟨_, ?_, hextends⟩
      have hscan : scan? (mark.spelling.toList ++ rest) =
          (scanMark? (mark.spelling.toList ++ rest)).map fun mark =>
            ⟨.mark mark, mark.spelling.toList⟩ := by
        cases mark <;> rfl
      rw [hscan, hfound]
      rfl
  | word =>
      obtain ⟨c, others, rfl, hc, hothers⟩ := mem_oneOf_mul_kstar.mp hpiece
      have hfeed : c ≠ '\n' := by
        rintro rfl
        cases hc
      refine ⟨⟨.word, c :: (others ++ rest).takeWhile isWordPart⟩, ?_,
        rest.takeWhile isWordPart, ?_, fun _ => rfl⟩
      · simp [scan?, hfeed, hc]
      · simp only [List.takeWhile_append_of_pos hothers, List.cons_append]
  | integer =>
      refine ⟨_, ?_, scanNumber_integer rest hpiece⟩
      exact scan?_digitRun rest hpiece
  | decimal =>
      refine ⟨_, ?_, scanNumber_decimal rest hpiece⟩
      obtain ⟨whole, hwhole, _, _, _, _, rfl⟩ :=
        mem_decimal_pattern.mp hpiece
      rw [List.append_assoc]
      exact scan?_digitRun _ hwhole
  | text =>
      obtain ⟨content, hcontent, rfl⟩ := mem_text_pattern.mp hpiece
      refine ⟨⟨.text, '"' :: (content ++ ['"'])⟩, ?_, [],
        (List.append_nil _).symm, fun _ => rfl⟩
      change scan? ('"' :: ((content ++ ['"']) ++ rest)) = _
      rw [List.append_assoc]
      exact congrArg some (scanText_text rest hcontent)
  | openText =>
      obtain ⟨content, hcontent, rfl⟩ := mem_openText_pattern.mp hpiece
      exact ⟨_, rfl, scanText_openText rest hcontent⟩

end Complete

/-- No lexeme starts like something that is dropped. -/
theorem scan?_of_dropped {piece rest : List Char} (hpiece : piece ∈ dropped) :
    scan? (piece ++ rest) = none := by
  cases hscan : scan? (piece ++ rest) with
  | none => rfl
  | some lexeme =>
      rcases hpiece with hpiece | ⟨_, ⟨c, hc, rfl⟩, others, -, rfl⟩
      · obtain ⟨c, others, rfl, hc, -⟩ := mem_oneOf_mul_kstar.mp hpiece
        rw [(not_blank_of_scan? hscan).1] at hc
        cases hc
      · exact absurd (by simpa using hc) (not_blank_of_scan? hscan).2

/-- The scanner finds the longest match, if that is not dropped. -/
theorem scan?_eq_some_iff {chars : List Char} {lexeme : Lexeme} :
    scan? chars = some lexeme ↔
      lexeme.text ∈ lexeme.shape.pattern ∧ Longest lexeme.text chars := by
  constructor
  · intro hscan
    obtain ⟨rest, hrest⟩ := scan?_eq_append hscan
    refine ⟨scan?_sound hscan, ⟨rest, hrest.symm⟩, ?_⟩
    rintro other ⟨after, rfl⟩ (hdropped | ⟨shape, hshape⟩)
    · rw [scan?_of_dropped hdropped] at hscan
      cases hscan
    · obtain ⟨found, hfound, more, hmore, -⟩ :=
        scan?_complete after hshape
      obtain rfl : found = lexeme := Option.some.inj (hfound.symm.trans hscan)
      rw [hmore]
      simp
  · rintro ⟨hshape, ⟨rest, rfl⟩, hlongest⟩
    obtain ⟨found, hfound, more, hmore, hends⟩ :=
      scan?_complete rest hshape
    obtain ⟨after, hafter⟩ := scan?_eq_append hfound
    have hle := hlongest found.text ⟨after, hafter.symm⟩
      (.inr ⟨found.shape, scan?_sound hfound⟩)
    have hnil : more = [] := by
      rw [hmore, List.length_append] at hle
      exact List.length_eq_zero_iff.mp (by omega)
    rw [hfound]
    obtain ⟨shape, text⟩ := found
    subst hnil
    simp only [List.append_nil] at hmore
    subst hmore
    obtain rfl := hends rfl
    rfl

/-- Nothing is found exactly where no shape matches. -/
theorem scan?_eq_none_iff {chars : List Char} :
    scan? chars = none ↔
      ∀ (shape : Shape) (piece : List Char), piece ∈ shape.pattern →
        ¬ piece <+: chars := by
  constructor
  · rintro hscan shape piece hpiece ⟨rest, rfl⟩
    obtain ⟨found, hfound, -⟩ := scan?_complete rest hpiece
    rw [hscan] at hfound
    cases hfound
  · intro hnone
    cases hscan : scan? chars with
    | none => rfl
    | some lexeme =>
        obtain ⟨rest, hrest⟩ := scan?_eq_append hscan
        exact absurd ⟨rest, hrest.symm⟩
          (hnone lexeme.shape lexeme.text (scan?_sound hscan))

section Dropped

theorem blank_ne_comment {c : Char} (hblank : isBlank c = true) : c ≠ '#' := by
  rintro rfl
  cases hblank

/-- Where no shape matches, only what is dropped does. -/
theorem Matches.dropped {chars piece : List Char} (hmatches : Matches piece)
    (hscan : scan? chars = none) (hstarts : piece <+: chars) :
    piece ∈ dropped := by
  rcases hmatches with hdropped | ⟨shape, hshape⟩
  · exact hdropped
  · exact absurd hstarts (scan?_eq_none_iff.mp hscan shape piece hshape)

variable {c : Char} (rest : List Char)

theorem blanks_mem_dropped (hblank : isBlank c = true) :
    c :: rest.takeWhile isBlank ∈ dropped :=
  .inl (mem_oneOf_mul_kstar.mpr
    ⟨c, _, rfl, hblank, fun _ hother => List.mem_takeWhile_imp hother⟩)

theorem comment_mem_dropped : '#' :: rest.takeWhile (· ≠ '\n') ∈ dropped :=
  .inr (mem_oneOf_mul_kstar.mpr
    ⟨'#', _, rfl, rfl, fun _ hc =>
      List.mem_takeWhile_imp (p := fun c => decide (c ≠ '\n')) hc⟩)

/-- Blanks are dropped as far as they go. -/
theorem longest_blanks (hblank : isBlank c = true) :
    Longest (c :: rest.takeWhile isBlank) (c :: rest) := by
  have hscan : scan? (c :: rest) = none := by
    rw [← List.takeWhile_append_dropWhile (p := isBlank) (l := rest)]
    exact scan?_of_dropped (blanks_mem_dropped rest hblank)
  refine ⟨⟨rest.dropWhile isBlank, by simp⟩, ?_⟩
  intro other hstarts hmatches
  rcases hmatches.dropped hscan hstarts with hother | hother
  · obtain ⟨after, hafter⟩ := hstarts
    obtain ⟨_, others, rfl, -, hothers⟩ := mem_oneOf_mul_kstar.mp hother
    obtain ⟨rfl, rfl⟩ := List.cons.inj hafter
    simp [List.takeWhile_append_of_pos hothers]
  · obtain ⟨_, others, rfl, hc, -⟩ := mem_oneOf_mul_kstar.mp hother
    obtain ⟨after, hafter⟩ := hstarts
    obtain ⟨rfl, rfl⟩ := List.cons.inj hafter
    exact absurd (by simpa using hc) (blank_ne_comment hblank)

/-- A comment is dropped up to the end of its line. -/
theorem longest_comment :
    Longest ('#' :: rest.takeWhile (· ≠ '\n')) ('#' :: rest) := by
  have hscan : scan? ('#' :: rest) = none := rfl
  refine ⟨⟨rest.dropWhile (· ≠ '\n'), by simp⟩, ?_⟩
  intro other hstarts hmatches
  obtain ⟨after, hafter⟩ := hstarts
  rcases hmatches.dropped hscan ⟨after, hafter⟩ with hother | hother
  · obtain ⟨_, others, rfl, hc, -⟩ := mem_oneOf_mul_kstar.mp hother
    obtain ⟨rfl, rfl⟩ := List.cons.inj hafter
    cases hc
  · obtain ⟨_, others, rfl, -, hothers⟩ := mem_oneOf_mul_kstar.mp hother
    obtain ⟨rfl, rfl⟩ := List.cons.inj hafter
    change _ ≤ ('#' :: (others ++ after).takeWhile (· ≠ '\n')).length
    rw [List.takeWhile_append_of_pos hothers]
    simp

end Dropped

end ChainScript
