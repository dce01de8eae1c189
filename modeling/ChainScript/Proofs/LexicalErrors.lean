import ChainScript.Proofs.Boundaries
import ChainScript.Proofs.LexerSteps

/-
The token that a lexical error is about.

The lexer fails at the first character that starts no token, or at the first
longest match that has no tokens.  In a string it fails at the first escape
without a meaning, otherwise the whole match is reported.  What comes before
this character or match has tokens, and with it, what comes after it no longer
matters.
-/

namespace ChainScript

open scoped Computability

/-- The text starts with a token that has this fault, and of the token the
fault reports a piece behind a lead. -/
inductive Refused (chars : List Char) :
    List Char → List Char → List Char → LexFault → Prop
  | character {c : Char} (hstarts : [c] <+: chars)
      (hnone : ∀ other, other <+: chars → ¬ Matches other) :
      Refused chars [c] [] [c] (.invalidCharacter c)
  | number {digits : List Char}
      (hnumber : digits ∈ Shape.integer.pattern ∨
        digits ∈ Shape.decimal.pattern)
      (hlongest : Longest digits chars) :
      Refused chars digits [] digits (.invalidNumber (String.ofList digits))
  | quote {content : List Char} (hcontent : content ∈ quotedPart∗)
      (hfeed : '\n' ∉ content) (hlongest : Longest ('"' :: content) chars) :
      Refused chars ('"' :: content) [] ('"' :: content) .unterminatedString
  | escape {content rest : List Char} {c : Char}
      (htext : '"' :: (content ++ '\\' :: c :: rest) ∈ Shape.text.pattern)
      (hlongest : Longest ('"' :: (content ++ '\\' :: c :: rest)) chars)
      (hfirst : ∀ offset, ∃ meant, unquoteFrom offset content = .ok meant)
      (hescape : escapedChar? c = none) :
      Refused chars ('"' :: (content ++ '\\' :: c :: rest)) ('"' :: content)
        ['\\', c] (.invalidEscape c)

/-- The error is about a token at the start of a text at an offset. -/
def LexError.IsAbout (error : LexError) (offset : Nat)
    (chars token : List Char) : Prop :=
  ∃ lead piece, Refused chars token lead piece error.fault ∧
    error.span = ⟨offset + utf8Length lead,
      offset + utf8Length lead + utf8Length piece⟩

/-- The piece that is reported is part of the token, and it is not empty. -/
theorem Refused.exists_append {chars token lead piece : List Char}
    {fault : LexFault} (hrefused : Refused chars token lead piece fault) :
    piece ≠ [] ∧ ∃ rest, token = lead ++ (piece ++ rest) := by
  cases hrefused with
  | character => exact ⟨List.cons_ne_nil _ _, [], by simp⟩
  | number hnumber _ =>
      refine ⟨?_, [], by simp⟩
      rintro rfl
      rcases hnumber with hrun | hdecimal
      · obtain ⟨_, _, hnil, -⟩ := mem_oneOf_mul_kstar.mp hrun
        cases hnil
      · obtain ⟨_, _, _, _, _, _, hnil⟩ := mem_decimal_pattern.mp hdecimal
        simp at hnil
  | quote => exact ⟨List.cons_ne_nil _ _, [], by simp⟩
  | @escape content rest c => exact ⟨List.cons_ne_nil _ _, rest, by simp⟩

/-- So the place of the error is that of the piece in the whole text. -/
theorem LexError.IsAbout.exists_covers {error : LexError}
    {before token after : List Char}
    (habout : error.IsAbout (utf8Length before) (token ++ after) token) :
    ∃ lead piece, Refused (token ++ after) token lead piece error.fault ∧
      error.span.start = utf8Length (before ++ lead) ∧
      error.span.start < error.span.stop ∧
      error.span.Covers (before ++ (token ++ after)) piece := by
  obtain ⟨lead, piece, hrefused, hspan⟩ := habout
  obtain ⟨hne, rest, htoken⟩ := hrefused.exists_append
  rw [← utf8Length_append] at hspan
  refine ⟨lead, piece, hrefused, by rw [hspan], ?_,
    before ++ lead, rest ++ after, ?_, hspan⟩
  · obtain ⟨c, others, rfl⟩ := List.exists_cons_of_ne_nil hne
    have hsize := c.utf8Size_pos
    rw [hspan, utf8Length_cons]
    dsimp only
    omega
  · rw [htoken]
    simp

section Lexemes

variable {lexeme : Lexeme} {chars : List Char} {afterDot : Bool} {offset : Nat}
  {error : LexError}

/-- The first escape without a meaning is a backslash and the character after
it. -/
theorem exists_of_unquoteFrom_error {content : List Char}
    (hcontent : content ∈ quotedPart∗) {bad : BadEscape}
    (hbad : unquoteFrom offset content = .error bad) :
    ∃ before after, content = before ++ '\\' :: bad.letter :: after ∧
      bad.offset = offset + utf8Length before ∧
      (∀ start, ∃ meant, unquoteFrom start before = .ok meant) ∧
      escapedChar? bad.letter = none := by
  revert offset
  refine kstar_induction (motive := fun content => ∀ {offset : Nat},
    unquoteFrom offset content = .error bad → ∃ before after,
      content = before ++ '\\' :: bad.letter :: after ∧
        bad.offset = offset + utf8Length before ∧
        (∀ start, ∃ meant, unquoteFrom start before = .ok meant) ∧
        escapedChar? bad.letter = none) nofun ?_ hcontent
  intro piece text hpiece _ ih offset hbad
  rcases hpiece with ⟨c, hc, rfl⟩ | hescape
  · have hplain : c ≠ '\\' := by
      rintro rfl
      cases hc
    rw [List.cons_append, List.nil_append,
      unquoteFrom_cons_of_ne _ _ hplain] at hbad
    cases hrest : unquoteFrom (offset + c.utf8Size) text with
    | ok meant => simp [hrest, Except.map] at hbad
    | error worse =>
        obtain rfl : worse = bad := by simpa [hrest, Except.map] using hbad
        obtain ⟨before, after, rfl, hoffset, hfirst, hnone⟩ := ih hrest
        refine ⟨c :: before, after, rfl, by simp [hoffset, Nat.add_assoc], ?_,
          hnone⟩
        intro start
        obtain ⟨meant, hmeant⟩ := hfirst (start + c.utf8Size)
        exact ⟨c :: meant, by
          rw [unquoteFrom_cons_of_ne _ _ hplain, hmeant]
          rfl⟩
  · obtain ⟨_, ⟨slash, hslash, rfl⟩, _, ⟨letter, hletter, rfl⟩, rfl⟩ := hescape
    obtain rfl : slash = '\\' := by simpa using hslash
    have hsize : '\\'.utf8Size = 1 := rfl
    simp only [List.cons_append, List.nil_append, unquoteFrom, if_true] at hbad
    cases hmeant : escapedChar? letter with
    | none =>
        simp only [hmeant, Except.error.injEq] at hbad
        subst hbad
        exact ⟨[], text, rfl, rfl, fun _ => ⟨[], rfl⟩, hmeant⟩
    | some c =>
        simp only [hmeant] at hbad
        cases hrest : unquoteFrom (offset + 1 + letter.utf8Size) text with
        | ok others => simp [hrest, Except.map] at hbad
        | error worse =>
            obtain rfl : worse = bad := by simpa [hrest, Except.map] using hbad
            obtain ⟨before, after, rfl, hoffset, hfirst, hnone⟩ := ih hrest
            refine ⟨'\\' :: letter :: before, after, rfl, by
              simp [hoffset, hsize, Nat.add_assoc], ?_, hnone⟩
            intro start
            obtain ⟨meant, hmore⟩ := hfirst (start + 1 + letter.utf8Size)
            exact ⟨c :: meant, by simp [unquoteFrom, hmeant, hmore, Except.map]⟩

/-- What is wrong with a lexeme. -/
theorem Lexeme.isAbout_of_kind_error (hscan : scan? chars = some lexeme)
    (hkind : lexeme.kind offset = .error error) :
    error.IsAbout offset chars lexeme.text := by
  obtain ⟨hshape, hlongest⟩ := scan?_eq_some_iff.mp hscan
  obtain ⟨shape, text⟩ := lexeme
  cases shape with
  | newline => cases hkind
  | mark symbol => cases hkind
  | word => cases hkind
  | integer =>
      simp only [Lexeme.kind] at hkind
      split at hkind <;> cases hkind
      exact ⟨[], text, .number (.inl hshape) hlongest, rfl⟩
  | decimal =>
      simp only [Lexeme.kind] at hkind
      split at hkind <;> cases hkind
      exact ⟨[], text, .number (.inr hshape) hlongest, rfl⟩
  | openText =>
      cases hkind
      have hopen : Shape.openText ≠ .newline := by decide
      have hfeed := Shape.withoutFeed_pattern hopen text hshape
      obtain ⟨content, hcontent, rfl⟩ := mem_openText_pattern.mp hshape
      exact ⟨[], _, .quote hcontent (fun hmem => hfeed (by simp [hmem]))
        hlongest, rfl⟩
  | text =>
      obtain ⟨content, hcontent, rfl⟩ := mem_text_pattern.mp hshape
      simp only [Lexeme.kind, List.drop_succ_cons, List.drop_zero,
        List.dropLast_concat] at hkind
      split at hkind
      · cases hkind
      · next bad hbad =>
        cases hkind
        obtain ⟨first, last, rfl, hoffset, hfirst, hescape⟩ :=
          exists_of_unquoteFrom_error hcontent hbad
        have hslash : '\\'.utf8Size = 1 := rfl
        have hquoted : '"'.utf8Size = 1 := rfl
        simp only [List.append_assoc, List.cons_append] at hshape hlongest ⊢
        refine ⟨_, _, .escape hshape hlongest hfirst hescape, ?_⟩
        simp [hoffset, hslash, hquoted, Nat.add_assoc]

theorem Lexeme.isAbout_of_tokens_error (hscan : scan? chars = some lexeme)
    (htokens : lexeme.tokens afterDot offset = .error error) :
    error.IsAbout offset chars lexeme.text := by
  unfold Lexeme.tokens at htokens
  split at htokens
  · next hpair =>
    obtain ⟨hshape, hlongest⟩ := scan?_eq_some_iff.mp hscan
    rw [hpair.1] at hshape
    simp only [memberPair] at htokens
    split at htokens <;> cases htokens
    exact ⟨[], _, .number (.inr hshape) hlongest, rfl⟩
  · cases hkind : lexeme.kind offset with
    | ok kind => simp [hkind, Except.map] at htokens
    | error bad =>
        obtain rfl : bad = error := by
          simpa [hkind, Except.map] using htokens
        exact isAbout_of_kind_error hscan hkind

end Lexemes

/-- The first token that cannot be made is what the error is about.  In front of
it there is no error, and there is the same one if the text ends behind it. -/
theorem exists_isAbout_of_lexAt_error {afterDot : Bool} {offset : Nat}
    {chars : List Char} {error : LexError}
    (hlex : lexAt afterDot offset chars = .error error) :
    ∃ before token after, chars = before ++ (token ++ after) ∧
      error.IsAbout (offset + utf8Length before) (token ++ after) token ∧
      (∃ tokens, lexAt afterDot offset before = .ok tokens) ∧
      lexAt afterDot offset (before ++ token) = .error error := by
  induction chars using lexed_induction generalizing afterDot offset with
  | nil => cases hlex
  | skip piece rest hpiece hlongest ih =>
      rw [lexAt_skip _ _ hpiece hlongest] at hlex
      obtain ⟨before, token, after, rfl, habout, ⟨tokens, htokens⟩, herror⟩ :=
        ih hlex
      refine ⟨piece ++ before, token, after, by simp, ?_, ⟨tokens, ?_⟩, ?_⟩
      · rwa [utf8Length_append, ← Nat.add_assoc]
      · rw [lexAt_skip _ _ hpiece
          (hlongest.of_prefix (List.prefix_append _ _)), htokens]
      · rw [List.append_assoc, lexAt_skip _ _ hpiece
          (hlongest.of_prefix ⟨after, by simp⟩), herror]
  | invalid c rest hblank hcomment hscan =>
      rw [lexAt_invalid _ _ hblank hcomment hscan] at hlex
      cases hlex
      have hnone : ∀ other, other <+: c :: rest → ¬ Matches other := by
        rintro other ⟨more, hmore⟩ (hdropped | ⟨shape, hshape⟩)
        · rcases hdropped with hdropped | hdropped
          all_goals
            obtain ⟨_, _, rfl, hfirst, -⟩ := mem_oneOf_mul_kstar.mp hdropped
            obtain ⟨rfl, -⟩ := List.cons.inj hmore
          · simp [hblank] at hfirst
          · simp [hcomment] at hfirst
        · exact scan?_eq_none_iff.mp hscan shape other hshape ⟨more, hmore⟩
      have halone : scan? [c] = none := scan?_eq_none_iff.mpr
        fun shape other hshape hother =>
          hnone other (hother.trans (List.prefix_append [c] rest))
            (.inr ⟨shape, hshape⟩)
      refine ⟨[], [c], rest, rfl, ?_, ⟨_, rfl⟩,
        lexAt_invalid _ _ hblank hcomment halone⟩
      exact ⟨[], [c], .character (List.prefix_append [c] rest) hnone, rfl⟩
  | lexeme lexeme rest hscan ih =>
      have hcut : ∀ shorter, shorter <+: rest →
          scan? (lexeme.text ++ shorter) = some lexeme := by
        intro shorter hshorter
        obtain ⟨hshape, hlongest⟩ := scan?_eq_some_iff.mp hscan
        exact scan?_eq_some_iff.mpr ⟨hshape, hlongest.of_prefix hshorter⟩
      rw [lexAt_lexeme _ _ _ hscan] at hlex
      cases hown : lexeme.tokens afterDot offset with
      | error bad =>
          obtain rfl : bad = error := by simpa [hown, Except.bind] using hlex
          refine ⟨[], lexeme.text, rest, rfl,
            Lexeme.isAbout_of_tokens_error hscan hown, ⟨_, rfl⟩, ?_⟩
          have halone := lexAt_lexeme afterDot offset lexeme
            (hcut [] (List.nil_prefix))
          rw [List.append_nil, hown] at halone
          exact halone
      | ok own =>
          simp only [hown, Except.bind] at hlex
          have hrest : lexAt (endsInDot own)
              (offset + utf8Length lexeme.text) rest = .error error := by
            cases hothers : lexAt (endsInDot own)
                (offset + utf8Length lexeme.text) rest with
            | ok others => simp [hothers, Except.map] at hlex
            | error bad => simpa [hothers, Except.map] using hlex
          obtain ⟨before, token, after, rfl, habout, ⟨tokens, htokens⟩,
            herror⟩ := ih hrest
          refine ⟨lexeme.text ++ before, token, after, by simp, ?_,
            ⟨own ++ tokens, ?_⟩, ?_⟩
          · rwa [utf8Length_append, ← Nat.add_assoc]
          · rw [lexAt_lexeme _ _ _ (hcut _ (List.prefix_append _ _)), hown]
            simp [Except.bind, Except.map, htokens]
          · rw [List.append_assoc,
              lexAt_lexeme _ _ _ (hcut _ ⟨after, by simp⟩), hown]
            simp [Except.bind, Except.map, herror]

/-- An error of the lexer is at a piece of the text that is not empty, and is
what the fault says about a token: a character that starts none, a number, a
quote with the rest of the literal in its line, or the first escape without a
meaning.  Cut off in front of the token the text has tokens, and cut off behind
it the same error. -/
theorem lexical_errors_precise {source : String} {error : LexError}
    (hlex : lex source = .error error) :
    error.span.start < error.span.stop ∧
      error.span.InText source.toList ∧
      ∃ before token after lead piece,
        source.toList = before ++ (token ++ after) ∧
        Refused (token ++ after) token lead piece error.fault ∧
        error.span.start = utf8Length (before ++ lead) ∧
        error.span.Covers source.toList piece ∧
        (∃ tokens, lex (String.ofList before) = .ok tokens) ∧
        lex (String.ofList (before ++ token)) = .error error := by
  obtain ⟨before, token, after, hsource, habout, htokens, hsame⟩ :=
    exists_isAbout_of_lexAt_error hlex
  rw [Nat.zero_add] at habout
  obtain ⟨lead, piece, hrefused, hstart, hnonempty, hcovers⟩ :=
    habout.exists_covers
  rw [← hsource] at hcovers
  refine ⟨hnonempty, hcovers.inText, before, token, after, lead, piece, hsource,
    hrefused, hstart, hcovers, ?_, ?_⟩
  · simpa only [lex_eq_lexAt, String.toList_ofList] using htokens
  · simpa only [lex_eq_lexAt, String.toList_ofList] using hsame

/-- The second escape of the string has no meaning, and the character behind the
string starts no token. -/
theorem lexical_errors_precise_secondEscape :
    let source := "# é\nx = \"ß\\n\\q\" $"
    let error : LexError := ⟨⟨14, 16⟩, .invalidEscape 'q'⟩
    lex source = .error error ∧
      error.span.Covers source.toList ['\\', 'q'] ∧
      ∃ before content, "# é\nx = \"ß\\n".toList = before ++ '"' :: content ∧
        ∃ tokens, lex (String.ofList before) = .ok tokens := by
  intro source error
  have hlex : lex source = .error error := by decide +kernel
  obtain ⟨-, -, before, token, after, lead, piece, hsource, hrefused, hstart,
    hcovers, htokens, -⟩ := lexical_errors_precise hlex
  cases hrefused with
  | @escape content rest =>
      have hsplit : "# é\nx = \"ß\\n".toList ++ "\\q\" $".toList =
          before ++ '"' :: content ++ ('\\' :: 'q' :: rest ++ after) := by
        simpa [source] using hsource
      exact ⟨hlex, hcovers, before, content, eq_of_utf8Length_eq hsplit hstart,
        htokens⟩

end ChainScript
