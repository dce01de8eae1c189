import ChainScript.Display
import ChainScript.Proofs.Acceptance
import ChainScript.Proofs.Printing

/-
The tokens of texts that are put together from words, whole numbers, strings
and punctuation.

What a piece of a text is cut into depends on the character after it: a word or
a number goes on as long as it can.  So each piece is taken in front of a text
whose tokens are known, and which starts with a character that ends the piece.
Places do not matter here, only the kinds of the tokens.
-/

namespace ChainScript

section Digits

theorem digitValue_digitChar {digit : Nat} (hdigit : digit < 10) :
    digitValue (Nat.digitChar digit) = digit := by
  revert digit
  decide

theorem isWordStart_of_isDigit {c : Char} (hdigit : c.isDigit = true) :
    isWordStart c = false := by
  have hwords : ∀ code < 58, 48 ≤ code →
      isWordStart (Char.ofNat code) = false := by
    decide
  have hcode : 48 ≤ c.toNat ∧ c.toNat ≤ 57 := by
    simpa [Char.isDigit, UInt32.le_iff_toNat_le] using hdigit
  rw [← Char.ofNat_toNat c]
  exact hwords c.toNat (Nat.lt_succ_of_le hcode.2) hcode.1

theorem extendBounded?_digitChar {value digit : Nat} (hdigit : digit < 10)
    (hrange : value * 10 + digit ≤ maxInteger) :
    extendBounded? value (Nat.digitChar digit) = some (value * 10 + digit) := by
  have hplain : ∀ digit < 10, Nat.digitChar digit ≠ '_' := by decide
  unfold extendBounded?
  rw [if_neg (hplain digit hdigit), digitValue_digitChar hdigit,
    if_neg (by omega), if_neg (by omega)]

/-- The digits of a number in range are read as the number. -/
theorem readInteger?_toDigits {n : Nat} (hrange : n ≤ maxInteger) :
    readInteger? (Nat.toDigits 10 n) = some (Int64.ofNat n) := by
  have hread : (Nat.toDigits 10 n).foldlM extendBounded? 0 = some n := by
    induction n using Nat.strongRecOn with
    | ind n ih =>
        by_cases hsmall : n < 10
        · rw [Nat.toDigits_of_lt_base hsmall]
          have hrange : 0 * 10 + n ≤ maxInteger := by omega
          simpa using extendBounded?_digitChar hsmall hrange
        · have hlast : n % 10 < 10 := Nat.mod_lt n (by decide)
          have hwhole : n / 10 * 10 + n % 10 = n := Nat.div_add_mod' n 10
          rw [Nat.toDigits_of_base_le (by decide) (Nat.not_lt.mp hsmall),
            List.foldlM_append, ih (n / 10) (by omega) (by omega)]
          have hextend := extendBounded?_digitChar hlast
            (Nat.le_trans (Nat.le_of_eq hwhole) hrange)
          rw [hwhole] at hextend
          simpa using hextend
  rw [readInteger?, hread]
  rfl

end Digits

/-- The text starts with a character that ends words and numbers, or there is
nothing more. -/
def Closes (chars : List Char) : Prop :=
  ∀ c ∈ chars.head?, c = ',' ∨ c = ':' ∨ c = ']'

theorem closes_nil : Closes [] :=
  fun _ hc => nomatch hc

theorem closes_comma (rest : List Char) : Closes (',' :: rest) := by
  rintro _ ⟨⟩
  exact .inl rfl

theorem closes_colon (rest : List Char) : Closes (':' :: rest) := by
  rintro _ ⟨⟩
  exact .inr (.inl rfl)

theorem closes_bracket (rest : List Char) : Closes (']' :: rest) := by
  rintro _ ⟨⟩
  exact .inr (.inr rfl)

section Scanning

variable {chars word : List Char} {goesOn : Char → Bool}

theorem Closes.takeWhile_eq_nil (hcloses : Closes chars)
    (hends : ∀ c, c = ',' ∨ c = ':' ∨ c = ']' → goesOn c = false) :
    chars.takeWhile goesOn = [] := by
  cases chars with
  | nil => rfl
  | cons c rest => simp [hends c (hcloses c rfl)]

/-- A piece ends where its characters end. -/
theorem Closes.takeWhile_append (hcloses : Closes chars)
    (hends : ∀ c, c = ',' ∨ c = ':' ∨ c = ']' → goesOn c = false)
    (hword : ∀ c ∈ word, goesOn c = true) :
    (word ++ chars).takeWhile goesOn = word := by
  rw [List.takeWhile_append_of_pos hword, hcloses.takeWhile_eq_nil hends,
    List.append_nil]

theorem Closes.dropWhile_append (hcloses : Closes chars)
    (hends : ∀ c, c = ',' ∨ c = ':' ∨ c = ']' → goesOn c = false)
    (hword : ∀ c ∈ word, goesOn c = true) :
    (word ++ chars).dropWhile goesOn = chars := by
  have hsplit := List.takeWhile_append_dropWhile (p := goesOn)
    (l := word ++ chars)
  rw [hcloses.takeWhile_append hends hword] at hsplit
  exact List.append_cancel_left hsplit

/-- A word is cut off where another character follows. -/
theorem scan?_word {first : Char} {others : List Char}
    (hfirst : isWordStart first = true)
    (hothers : others.all isWordPart = true) (hcloses : Closes chars) :
    scan? (first :: (others ++ chars)) = some ⟨.word, first :: others⟩ := by
  have hne : first ≠ '\n' := by
    rintro rfl
    cases hfirst
  have hpart : (others ++ chars).takeWhile isWordPart = others := by
    refine hcloses.takeWhile_append ?_ (List.all_eq_true.mp hothers)
    rintro _ (rfl | rfl | rfl) <;> rfl
  rw [scan?, if_neg hne, if_pos hfirst, hpart]

/-- A whole number is cut off where another character follows. -/
theorem scan?_digits {first : Char} {others : List Char}
    (hdigits : ∀ c ∈ first :: others, c.isDigit = true)
    (hcloses : Closes chars) :
    scan? (first :: (others ++ chars)) = some ⟨.integer, first :: others⟩ := by
  have hfirst := hdigits first List.mem_cons_self
  have hne : first ≠ '\n' := by
    rintro rfl
    cases hfirst
  have hword : ¬ isWordStart first = true := by
    simp [isWordStart_of_isDigit hfirst]
  have hends : ∀ c, c = ',' ∨ c = ':' ∨ c = ']' →
      isDigitOrSeparator c = false := by
    rintro _ (rfl | rfl | rfl) <;> rfl
  have hrun : ∀ c ∈ first :: others, isDigitOrSeparator c = true :=
    fun c hc => by simp [isDigitOrSeparator, hdigits c hc]
  rw [scan?, if_neg hne, if_neg hword, if_pos hfirst, ← List.cons_append,
    scanNumber, hcloses.takeWhile_append hends hrun,
    hcloses.dropWhile_append hends hrun]
  dsimp only
  split
  · next c rest =>
      exact absurd (hcloses '.' rfl) (by decide)
  · rfl

theorem scanContent_cons {c : Char} (rest : List Char)
    (hplain : c ≠ '\\' ∧ c ≠ '"' ∧ c ≠ '\n' ∧ c ≠ '\r') :
    scanContent (c :: rest) = c :: scanContent rest := by
  cases rest <;> simp [scanContent, hplain]

/-- Between quotes there is nothing that ends a string early. -/
theorem scanContent_quoted (text : List Char) :
    scanContent (text.flatMap quoteChar ++ '"' :: chars) =
      text.flatMap quoteChar := by
  induction text with
  | nil =>
      change scanContent ('"' :: chars) = []
      cases chars <;> simp [scanContent]
  | cons c rest ih =>
      rw [List.flatMap_cons, List.append_assoc, quoteChar]
      cases hletter : escapeLetter? c with
      | some letter =>
          have hne : letter ≠ '\n' := by
            rintro rfl
            cases escapedChar?_of_escapeLetter? hletter
          simp [scanContent, hne, ih]
      | none =>
          have hplain : c ≠ '\\' ∧ c ≠ '"' ∧ c ≠ '\n' ∧ c ≠ '\r' := by
            refine ⟨?_, ?_, ?_, ?_⟩ <;> rintro rfl <;> cases hletter
          simp [scanContent_cons _ hplain, ih]

/-- A string is cut off at its second quote. -/
theorem scan?_quoted (text : List Char) :
    scan? (quoteChars text ++ chars) = some ⟨.text, quoteChars text⟩ := by
  have hquoted : quoteChars text ++ chars =
      '"' :: (text.flatMap quoteChar ++ '"' :: chars) := by
    simp [quoteChars]
  have hscan : ∀ rest, scan? ('"' :: rest) = some (scanText rest) :=
    fun _ => rfl
  rw [hquoted, hscan, scanText, scanContent_quoted, List.drop_left]
  rfl

end Scanning

/-- Nothing that is dropped between lexemes starts one. -/
theorem not_blank_of_scan? {c : Char} {rest : List Char} {lexeme : Lexeme}
    (hscan : scan? (c :: rest) = some lexeme) :
    isBlank c = false ∧ c ≠ '#' := by
  have hblank : ∀ blank ∈ [' ', '\t', '\r', '#'], c ≠ blank := by
    rintro blank hmem rfl
    simp only [List.mem_cons, List.not_mem_nil, or_false] at hmem
    obtain rfl | rfl | rfl | rfl := hmem <;> cases hscan
  simp only [List.mem_cons, List.not_mem_nil, or_false, forall_eq_or_imp,
    forall_eq] at hblank
  simp [isBlank, hblank]

/-- The lexer gives these tokens for the text, wherever the text stands. -/
def LexesTo (chars : List Char) (tokens : List Token) : Prop :=
  ∀ allowance afterDot offset, chars.length ≤ allowance →
    ∃ lexed, lexFrom allowance afterDot offset chars = .ok lexed ∧
      SameKinds lexed tokens

section Lexing

variable {chars : List Char} {tokens : List Token}

theorem LexesTo.lex {text : String} (hlexes : LexesTo text.toList tokens) :
    ∃ lexed, lex text = .ok lexed ∧ SameKinds lexed tokens :=
  hlexes _ false 0 (Nat.le_refl _)

theorem lexesTo_nil : LexesTo [] [.of .eof] := by
  intro allowance afterDot offset _
  cases allowance <;> exact ⟨_, rfl, rfl⟩

/-- Blanks are dropped. -/
theorem LexesTo.blank (hlexes : LexesTo chars tokens) :
    LexesTo (' ' :: chars) tokens := by
  intro allowance afterDot offset hlength
  obtain ⟨less, rfl⟩ : ∃ less, allowance = less + 1 :=
    ⟨allowance - 1, by rw [List.length_cons] at hlength; omega⟩
  exact hlexes less afterDot _ (Nat.le_of_succ_le_succ hlength)

/-- A lexeme that is one token is the first one. -/
theorem LexesTo.lexeme {shape : Shape} {text : List Char} {kind : TokenKind}
    (hscan : scan? (text ++ chars) = some ⟨shape, text⟩)
    (hshape : shape ≠ .decimal)
    (hkind : ∀ start, Lexeme.kind ⟨shape, text⟩ start = .ok kind)
    (hlexes : LexesTo chars tokens) :
    LexesTo (text ++ chars) (.of kind :: tokens) := by
  intro allowance afterDot offset hlength
  have hnonempty := scan?_text_ne_nil hscan
  cases text with
  | nil => exact absurd rfl hnonempty
  | cons c rest =>
      rw [List.length_append, List.length_cons] at hlength
      obtain ⟨less, rfl⟩ : ∃ less, allowance = less + 1 :=
        ⟨allowance - 1, by omega⟩
      obtain ⟨token, htoken, rfl⟩ : ∃ token,
          Lexeme.tokens ⟨shape, c :: rest⟩ afterDot offset = .ok [token] ∧
            token.kind = kind := by
        rw [Lexeme.tokens, if_neg fun h => hshape h.1, hkind]
        exact ⟨_, rfl, rfl⟩
      have hdrop : (c :: (rest ++ chars)).drop (c :: rest).length = chars :=
        List.drop_left
      obtain ⟨others, hrest, hsame⟩ := hlexes less (endsInDot [token])
        (offset + utf8Length (c :: rest)) (by omega)
      obtain ⟨hblank, hcomment⟩ := not_blank_of_scan? hscan
      rw [List.cons_append] at hscan ⊢
      refine ⟨token :: others, ?_, congrArg (token.kind :: ·) hsame⟩
      simp only [lexFrom, hblank, hcomment, hscan, htoken, hdrop, hrest]
      rfl

/-- A piece of punctuation is a token. -/
theorem LexesTo.mark (c : Char) (mark : Mark)
    (hscan : scan? (c :: chars) = some ⟨.mark mark, [c]⟩)
    (hlexes : LexesTo chars tokens) :
    LexesTo (c :: chars) (.of (.mark mark) :: tokens) := by
  rw [← List.singleton_append] at hscan ⊢
  exact .lexeme hscan nofun (fun _ => rfl) hlexes

/-- A word is a keyword or a name. -/
theorem LexesTo.word {word : String} (hplain : isPlainLabel word.toList = true)
    (hcloses : Closes chars) (hlexes : LexesTo chars tokens) :
    LexesTo (word.toList ++ chars) (.of (wordKind word) :: tokens) := by
  cases hword : word.toList with
  | nil => simp [hword, isPlainLabel] at hplain
  | cons first others =>
      rw [hword, isPlainLabel, Bool.and_eq_true] at hplain
      refine .lexeme (scan?_word hplain.1 hplain.2 hcloses) nofun ?_ hlexes
      intro start
      simp [Lexeme.kind, ← hword]

/-- The digits of a number in range are a token. -/
theorem LexesTo.digits {n : Nat} (hrange : n ≤ maxInteger)
    (hcloses : Closes chars) (hlexes : LexesTo chars tokens) :
    LexesTo (Nat.toDigits 10 n ++ chars)
      (.of (.int (Int64.ofNat n)) :: tokens) := by
  have hdigits : ∀ c ∈ Nat.toDigits 10 n, c.isDigit = true :=
    fun c hc => Nat.isDigit_of_mem_toDigits (by decide) (by decide) hc
  have hread := readInteger?_toDigits hrange
  cases hchars : Nat.toDigits 10 n with
  | nil => exact absurd hchars Nat.toDigits_ne_nil
  | cons first others =>
      rw [hchars] at hdigits hread
      refine .lexeme (scan?_digits hdigits hcloses) nofun ?_ hlexes
      intro start
      simp [Lexeme.kind, hread]

/-- A string between quotes is a token. -/
theorem LexesTo.quoted (text : String) (hlexes : LexesTo chars tokens) :
    LexesTo ((quote text).toList ++ chars) (.of (.str text) :: tokens) := by
  have hquote : (quote text).toList = quoteChars text.toList := by
    simp [quote]
  rw [hquote]
  refine .lexeme (scan?_quoted text.toList) nofun ?_ hlexes
  intro start
  simp [Lexeme.kind, quoteChars, unquoteFrom_flatMap_quoteChar]

end Lexing

end ChainScript
