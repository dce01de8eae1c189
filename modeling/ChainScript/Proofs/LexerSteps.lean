import ChainScript.Proofs.LongestMatch

/-
The lexer, one piece of text at a time.

Any allowance that covers the text gives the same tokens, so the allowance can
be left out.  What is left is a recursion over the longest matches of a text:
blanks and comments are dropped, and a lexeme is replaced by its tokens.
-/

namespace ChainScript

/-- The tokens of a text that starts at `offset`. -/
def lexAt (afterDot : Bool) (offset : Nat) (chars : List Char) :
    Except LexError (List Token) :=
  lexFrom chars.length afterDot offset chars

/-- An allowance that covers the text is never used up. -/
theorem lexFrom_eq_of_le {first second : Nat} (afterDot : Bool) (offset : Nat)
    {chars : List Char} (hfirst : chars.length ≤ first)
    (hsecond : chars.length ≤ second) :
    lexFrom first afterDot offset chars =
      lexFrom second afterDot offset chars := by
  induction first generalizing second afterDot offset chars with
  | zero =>
      obtain rfl : chars = [] := List.length_eq_zero_iff.mp (by omega)
      cases second <;> rfl
  | succ first ih =>
      cases chars with
      | nil => cases second <;> rfl
      | cons c rest =>
          rw [List.length_cons] at hfirst hsecond
          obtain ⟨second, rfl⟩ : ∃ less, second = less + 1 :=
            ⟨second - 1, by omega⟩
          have hcomment : (rest.dropWhile (· ≠ '\n')).length ≤ rest.length :=
            (List.dropWhile_sublist _).length_le
          simp only [lexFrom]
          split
          · exact ih _ _ (by omega) (by omega)
          · split
            · exact ih _ _ (by omega) (by omega)
            · cases hscan : scan? (c :: rest) with
              | none => rfl
              | some lexeme =>
                  have hpos := List.length_pos_iff.mpr
                    (scan?_text_ne_nil hscan)
                  have hdrop : ((c :: rest).drop lexeme.text.length).length ≤
                      rest.length := by
                    rw [List.length_drop, List.length_cons]
                    omega
                  have hsame : ∀ tokens next,
                      lexFrom first (endsInDot tokens) next
                        ((c :: rest).drop lexeme.text.length) =
                      lexFrom second (endsInDot tokens) next
                        ((c :: rest).drop lexeme.text.length) :=
                    fun tokens next => ih _ _ (by omega) (by omega)
                  simp only [hsame]

theorem lexFrom_eq_lexAt {allowance : Nat} (afterDot : Bool) (offset : Nat)
    {chars : List Char} (hallowance : chars.length ≤ allowance) :
    lexFrom allowance afterDot offset chars = lexAt afterDot offset chars :=
  lexFrom_eq_of_le afterDot offset hallowance (Nat.le_refl _)

theorem lex_eq_lexAt (source : String) :
    lex source = lexAt false 0 source.toList :=
  rfl

theorem mapped_eq_ok_iff {ε α β : Type} {f : α → β} {result : Except ε α}
    {value : β} :
    result.map f = .ok value ↔ ∃ inner, result = .ok inner ∧ f inner = value := by
  cases result <;> simp [Except.map]

section Pieces

variable (afterDot : Bool) (offset : Nat) {c : Char} {piece rest : List Char}

theorem lexAt_blanks (hblanks : ∀ c ∈ piece, isBlank c = true) :
    lexAt afterDot offset (piece ++ rest) =
      lexAt afterDot (offset + utf8Length piece) rest := by
  induction piece generalizing offset with
  | nil => rfl
  | cons c others ih =>
      obtain ⟨hblank, hothers⟩ := List.forall_mem_cons.mp hblanks
      rw [utf8Length_cons, ← Nat.add_assoc, ← ih _ hothers]
      simp [lexAt, lexFrom, hblank]

theorem lexAt_comment :
    lexAt afterDot offset ('#' :: rest) =
      lexAt afterDot (offset + utf8Length ('#' :: rest.takeWhile (· ≠ '\n')))
        (rest.dropWhile (· ≠ '\n')) := by
  have hlength : (rest.dropWhile (· ≠ '\n')).length ≤ rest.length :=
    (List.dropWhile_sublist _).length_le
  rw [utf8Length_cons, ← Nat.add_assoc, ← lexFrom_eq_lexAt _ _ hlength]
  rfl

/-- What is dropped only moves the rest of the text. -/
theorem lexAt_skip (hpiece : piece ∈ dropped)
    (hlongest : Longest piece (piece ++ rest)) :
    lexAt afterDot offset (piece ++ rest) =
      lexAt afterDot (offset + utf8Length piece) rest := by
  rcases hpiece with hblanks | hcomment
  · obtain ⟨c, others, rfl, hc, hothers⟩ := mem_oneOf_mul_kstar.mp hblanks
    exact lexAt_blanks _ _ (List.forall_mem_cons.mpr ⟨hc, hothers⟩)
  · obtain ⟨c, others, rfl, hc, -⟩ := mem_oneOf_mul_kstar.mp hcomment
    obtain rfl : c = '#' := by simpa using hc
    have heq := hlongest.eq (.inl (.inr hcomment))
      (longest_comment (others ++ rest)) (.inl (comment_mem_dropped _))
    have hothers := (List.cons.inj heq).2
    have hsplit := List.takeWhile_append_dropWhile
      (p := fun c => decide (c ≠ '\n')) (l := others ++ rest)
    rw [← hothers] at hsplit
    rw [List.cons_append, lexAt_comment, ← hothers,
      List.append_cancel_left hsplit]

theorem lexAt_invalid (hblank : isBlank c = false) (hcomment : c ≠ '#')
    (hscan : scan? (c :: rest) = none) :
    lexAt afterDot offset (c :: rest) =
      .error ⟨⟨offset, offset + c.utf8Size⟩, .invalidCharacter c⟩ := by
  simp [lexAt, lexFrom, hblank, hcomment, hscan]

theorem lexAt_lexeme (lexeme : Lexeme)
    (hscan : scan? (lexeme.text ++ rest) = some lexeme) :
    lexAt afterDot offset (lexeme.text ++ rest) =
      (lexeme.tokens afterDot offset).bind fun tokens =>
        (lexAt (endsInDot tokens) (offset + utf8Length lexeme.text) rest).map
          (tokens ++ ·) := by
  cases htext : lexeme.text with
  | nil => exact absurd htext (scan?_text_ne_nil hscan)
  | cons c others =>
      rw [htext, List.cons_append] at hscan
      obtain ⟨hblank, hcomment⟩ := not_blank_of_scan? hscan
      have hlength : rest.length ≤ (others ++ rest).length := by simp
      simp only [lexAt, List.cons_append, List.length_cons, lexFrom, hblank,
        hcomment, hscan, htext, if_false, Bool.false_eq_true,
        List.drop_succ_cons, List.drop_left]
      cases lexeme.tokens afterDot offset with
      | error error => rfl
      | ok tokens =>
          simp only [Except.bind]
          rw [lexFrom_eq_lexAt _ _ hlength, lexAt]

end Pieces

/-- What a lexeme leaves are its own tokens and those of the rest. -/
theorem of_lexAt_lexeme {afterDot : Bool} {offset : Nat} {rest : List Char}
    {tokens : List Token} (lexeme : Lexeme)
    (hscan : scan? (lexeme.text ++ rest) = some lexeme)
    (hlex : lexAt afterDot offset (lexeme.text ++ rest) = .ok tokens) :
    ∃ own others, lexeme.tokens afterDot offset = .ok own ∧
      lexAt (endsInDot own) (offset + utf8Length lexeme.text) rest =
        .ok others ∧
      own ++ others = tokens := by
  rw [lexAt_lexeme _ _ lexeme hscan] at hlex
  cases hown : lexeme.tokens afterDot offset with
  | error error =>
      rw [hown] at hlex
      cases hlex
  | ok own =>
      rw [hown] at hlex
      obtain ⟨others, hothers, htokens⟩ := mapped_eq_ok_iff.mp hlex
      exact ⟨own, others, rfl, hothers, htokens⟩

/-- Induction over the longest matches that the lexer takes a text apart
into. -/
@[elab_as_elim]
theorem lexed_induction {motive : List Char → Prop} (nil : motive [])
    (skip : ∀ piece rest, piece ∈ dropped → Longest piece (piece ++ rest) →
      motive rest → motive (piece ++ rest))
    (invalid : ∀ c rest, isBlank c = false → c ≠ '#' →
      scan? (c :: rest) = none → motive (c :: rest))
    (lexeme : ∀ lexeme rest, scan? (lexeme.text ++ rest) = some lexeme →
      motive rest → motive (lexeme.text ++ rest))
    (chars : List Char) : motive chars := by
  induction hlength : chars.length using Nat.strongRecOn generalizing chars with
  | ind length ih =>
      subst hlength
      have hskip : ∀ piece, piece ∈ dropped → piece ≠ [] →
          Longest piece chars → motive chars := by
        intro piece hdropped hne hlongest
        obtain ⟨rest, rfl⟩ := hlongest.starts
        have hpos := List.length_pos_iff.mpr hne
        have hlt : rest.length < (piece ++ rest).length := by
          rw [List.length_append]
          omega
        exact skip piece rest hdropped hlongest (ih _ hlt rest rfl)
      cases chars with
      | nil => exact nil
      | cons c rest =>
          by_cases hblank : isBlank c = true
          · exact hskip _ (blanks_mem_dropped rest hblank)
              (List.cons_ne_nil _ _) (longest_blanks rest hblank)
          · by_cases hcomment : c = '#'
            · subst hcomment
              exact hskip _ (comment_mem_dropped rest) (List.cons_ne_nil _ _)
                (longest_comment rest)
            · cases hscan : scan? (c :: rest) with
              | none =>
                  exact invalid c rest (by simpa using hblank) hcomment hscan
              | some found =>
                  obtain ⟨after, hafter⟩ := scan?_eq_append hscan
                  have hpos := List.length_pos_iff.mpr
                    (scan?_text_ne_nil hscan)
                  have hlt : after.length < (c :: rest).length := by
                    rw [hafter, List.length_append]
                    omega
                  rw [hafter] at hscan ⊢
                  exact lexeme found after hscan (ih _ hlt after rfl)

end ChainScript
