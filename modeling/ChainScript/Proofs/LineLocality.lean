import ChainScript.Proofs.LexerSteps

/-
Texts are lexed line by line.

No match but the line feed itself goes on past the end of a line, so what a
text is taken apart into does not depend on the lines after it.  Nor do places
matter to the lexer, except that all of them move with the text, and the only
thing that it keeps in mind, a dot before a number, is forgotten at a line
feed.
-/

namespace ChainScript

section Matching

variable {piece chars : List Char} (others : List Char)

/-- What matches at the start of a text lies before the end of its last line. -/
theorem Matches.prefix_of_line (hmatches : Matches piece) (hne : chars ≠ [])
    (hstarts : piece <+: chars ++ '\n' :: others) : piece <+: chars := by
  have hchars : chars <+: chars ++ '\n' :: others := List.prefix_append _ _
  by_cases hle : piece.length ≤ chars.length
  · exact List.prefix_of_prefix_length_le hstarts hchars hle
  · obtain ⟨after, hafter⟩ := hstarts
    rcases List.append_eq_append_iff.mp hafter with
      ⟨more, rfl, -⟩ | ⟨more, rfl, hmore⟩
    · exact ⟨more, rfl⟩
    · cases more with
      | nil => simp at hle
      | cons c tail =>
          obtain rfl : '\n' = c := (List.cons.inj hmore).1
          have hfeed := hmatches.eq_feed (by simp)
          have hlength := congrArg List.length hfeed
          have hpos := List.length_pos_iff.mpr hne
          simp only [List.length_append, List.length_cons, List.length_nil]
            at hlength
          omega

theorem longest_line_iff (hmatches : Matches piece) (hne : chars ≠ []) :
    Longest piece (chars ++ '\n' :: others) ↔ Longest piece chars := by
  constructor
  · intro hlongest
    refine ⟨hmatches.prefix_of_line others hne hlongest.starts, ?_⟩
    intro other hstarts hother
    exact hlongest.longest other (hstarts.trans (List.prefix_append _ _)) hother
  · intro hlongest
    refine ⟨hlongest.starts.trans (List.prefix_append _ _), ?_⟩
    intro other hstarts hother
    exact hlongest.longest other (hother.prefix_of_line others hne hstarts)
      hother

/-- The scanner does not look past the end of a line. -/
theorem scan?_line (hne : chars ≠ []) :
    scan? (chars ++ '\n' :: others) = scan? chars := by
  apply Option.ext
  intro lexeme
  rw [scan?_eq_some_iff, scan?_eq_some_iff]
  refine and_congr_right fun hshape => ?_
  exact longest_line_iff others (.inr ⟨lexeme.shape, hshape⟩) hne

end Matching

/-- The error moved `bytes` to the right. -/
def LexError.shift (error : LexError) (bytes : Nat) : LexError :=
  ⟨error.span.shift bytes, error.fault⟩

section Shifts

variable (bytes : Nat)

theorem Span.shift_of_length (start length : Nat) :
    (⟨start + bytes, start + bytes + length⟩ : Span) =
      Span.shift ⟨start, start + length⟩ bytes := by
  simp only [Span.shift, Span.mk.injEq, true_and]
  omega

theorem unquoteFrom_add (offset : Nat) (text : List Char) :
    unquoteFrom (offset + bytes) text = (unquoteFrom offset text).mapError
      fun bad => ⟨bad.offset + bytes, bad.letter⟩ := by
  fun_induction unquoteFrom offset text with
  | case1 => rfl
  | case2 => rfl
  | case3 offset letter after hletter =>
      simp [unquoteFrom, hletter, Except.mapError]
  | case4 offset letter after c hletter ih =>
      have hnext : offset + bytes + 1 + letter.utf8Size =
          offset + 1 + letter.utf8Size + bytes := by
        omega
      simp only [unquoteFrom, if_true, hletter, hnext, ih]
      cases unquoteFrom (offset + 1 + letter.utf8Size) after <;> rfl
  | case5 offset c rest hplain ih =>
      rw [unquoteFrom_cons_of_ne _ _ hplain,
        Nat.add_right_comm, ih]
      cases unquoteFrom (offset + c.utf8Size) rest <;> rfl

/-- The kind of a lexeme does not depend on its place. -/
theorem Lexeme.kind_add (lexeme : Lexeme) (start : Nat) :
    lexeme.kind (start + bytes) =
      (lexeme.kind start).mapError (·.shift bytes) := by
  obtain ⟨shape, text⟩ := lexeme
  cases shape with
  | newline => rfl
  | mark symbol => rfl
  | word => rfl
  | integer =>
      simp only [Lexeme.kind, Span.shift_of_length]
      cases readInteger? text <;> rfl
  | decimal =>
      simp only [Lexeme.kind, Span.shift_of_length]
      cases readFloat? text <;> rfl
  | text =>
      simp only [Lexeme.kind, Nat.add_right_comm start bytes 1]
      rw [unquoteFrom_add bytes (start + 1)]
      cases unquoteFrom (start + 1) (text.drop 1).dropLast with
      | ok content => rfl
      | error bad =>
          have hstop : bad.offset + bytes + 1 + bad.letter.utf8Size =
              bad.offset + 1 + bad.letter.utf8Size + bytes := by
            omega
          simp only [Except.mapError, LexError.shift, Span.shift, hstop]
  | openText =>
      simp only [Lexeme.kind, Span.shift_of_length]
      rfl

theorem memberPair_add (text : List Char) (start : Nat) :
    memberPair text (start + bytes) =
      ((memberPair text start).mapError (·.shift bytes)).map
        (·.map (·.shift bytes)) := by
  have hadd : ∀ length, start + bytes + length = start + length + bytes :=
    fun length => Nat.add_right_comm _ _ _
  unfold memberPair
  simp only [hadd, Nat.add_right_comm _ bytes 1]
  split <;> rfl

theorem Lexeme.tokens_add (lexeme : Lexeme) (afterDot : Bool) (start : Nat) :
    lexeme.tokens afterDot (start + bytes) =
      ((lexeme.tokens afterDot start).mapError (·.shift bytes)).map
        (·.map (·.shift bytes)) := by
  unfold Lexeme.tokens
  split
  · exact memberPair_add bytes lexeme.text start
  · rw [Lexeme.kind_add, Span.shift_of_length]
    cases lexeme.kind start <;> rfl

theorem endsInDot_shift (tokens : List Token) :
    endsInDot (tokens.map (·.shift bytes)) = endsInDot tokens := by
  unfold endsInDot
  rw [List.getLast?_map]
  cases tokens.getLast? <;> rfl

/-- Places move with the text. -/
theorem lexAt_add (afterDot : Bool) (offset : Nat) (chars : List Char) :
    lexAt afterDot (offset + bytes) chars =
      ((lexAt afterDot offset chars).mapError (·.shift bytes)).map
        (·.map (·.shift bytes)) := by
  induction chars using lexed_induction generalizing afterDot offset with
  | nil => rfl
  | skip piece rest hpiece hlongest ih =>
      rw [lexAt_skip _ _ hpiece hlongest, lexAt_skip _ _ hpiece hlongest,
        Nat.add_right_comm, ih]
  | invalid c rest hblank hcomment hscan =>
      rw [lexAt_invalid _ _ hblank hcomment hscan,
        lexAt_invalid _ _ hblank hcomment hscan, Span.shift_of_length]
      rfl
  | lexeme lexeme rest hscan ih =>
      rw [lexAt_lexeme _ _ _ hscan, lexAt_lexeme _ _ _ hscan, Lexeme.tokens_add]
      cases lexeme.tokens afterDot offset with
      | error error => rfl
      | ok own =>
          simp only [Except.mapError, Except.map, Except.bind, endsInDot_shift,
            Nat.add_right_comm offset bytes, ih]
          cases lexAt (endsInDot own) (offset + utf8Length lexeme.text) rest with
          | error error => rfl
          | ok others => simp

end Shifts

theorem ne_nil_of_mem_dropped {piece : List Char} (hpiece : piece ∈ dropped) :
    piece ≠ [] := by
  rcases hpiece with hpiece | hpiece
  all_goals
    obtain ⟨c, others, rfl, -⟩ := mem_oneOf_mul_kstar.mp hpiece
    exact List.cons_ne_nil _ _

/-- The token of a line feed at an offset. -/
def feedToken (offset : Nat) : Token :=
  ⟨.newline, ⟨offset, offset + 1⟩⟩

/-- A line is lexed before what follows it, and leaves nothing behind. -/
theorem lexAt_line (afterDot : Bool) (offset : Nat) (line others : List Char) :
    ∃ body : Except LexError (List Token),
      lexAt afterDot offset line =
        body.map (· ++ [⟨.eof, .point (offset + utf8Length line)⟩]) ∧
      lexAt afterDot offset (line ++ '\n' :: others) =
        body.bind fun front =>
          (lexAt false (offset + utf8Length line + 1) others).map fun rest =>
            front ++ feedToken (offset + utf8Length line) :: rest := by
  induction line using lexed_induction generalizing afterDot offset with
  | nil =>
      refine ⟨.ok [], rfl, ?_⟩
      have hscan : scan? (['\n'] ++ others) = some ⟨.newline, ['\n']⟩ := rfl
      exact lexAt_lexeme afterDot offset ⟨.newline, ['\n']⟩ hscan
  | skip piece rest hpiece hlongest ih =>
      have hne : piece ++ rest ≠ [] := by
        simp [ne_nil_of_mem_dropped hpiece]
      have hline := (longest_line_iff others (.inl hpiece) hne).mpr hlongest
      rw [List.append_assoc] at hline ⊢
      rw [lexAt_skip _ _ hpiece hlongest, lexAt_skip _ _ hpiece hline,
        utf8Length_append, ← Nat.add_assoc]
      exact ih afterDot (offset + utf8Length piece)
  | invalid c rest hblank hcomment hscan =>
      have hline : scan? (c :: (rest ++ '\n' :: others)) = none := by
        rw [← List.cons_append, scan?_line others (List.cons_ne_nil c rest)]
        exact hscan
      refine ⟨.error ⟨⟨offset, offset + c.utf8Size⟩, .invalidCharacter c⟩, ?_, ?_⟩
      · exact lexAt_invalid _ _ hblank hcomment hscan
      · exact lexAt_invalid _ _ hblank hcomment hline
  | lexeme lexeme rest hscan ih =>
      have hne : lexeme.text ++ rest ≠ [] := by
        simp [scan?_text_ne_nil hscan]
      have hline : scan? (lexeme.text ++ (rest ++ '\n' :: others)) =
          some lexeme := by
        rw [← List.append_assoc, scan?_line others hne]
        exact hscan
      rw [List.append_assoc, lexAt_lexeme _ _ _ hscan, lexAt_lexeme _ _ _ hline,
        utf8Length_append, ← Nat.add_assoc]
      cases lexeme.tokens afterDot offset with
      | error error => exact ⟨.error error, rfl, rfl⟩
      | ok own =>
          obtain ⟨body, hbody, hall⟩ :=
            ih (endsInDot own) (offset + utf8Length lexeme.text)
          refine ⟨body.map (own ++ ·), ?_, ?_⟩
          · simp only [Except.bind, hbody]
            cases body <;> simp [Except.map]
          · simp only [Except.bind, hall]
            cases body with
            | error error => rfl
            | ok front =>
                cases lexAt false
                  (offset + utf8Length lexeme.text + utf8Length rest + 1) others <;>
                  simp [Except.map]

/-- Lexing goes line by line: a text, a line feed and a second text give the
error of the first text, or that of the second one moved behind the first, or
the tokens of both with a newline in the place of the first end of file. -/
theorem lex_line_local (first second : String) :
    lex (first ++ "\n" ++ second) =
      match lex first, lex second with
      | .error error, _ => .error error
      | .ok _, .error error =>
          .error (error.shift (utf8Length first.toList + 1))
      | .ok tokens, .ok others =>
          .ok (tokens.dropLast ++
            feedToken (utf8Length first.toList) ::
              others.map (·.shift (utf8Length first.toList + 1))) := by
  have hchars : (first ++ "\n" ++ second).toList =
      first.toList ++ '\n' :: second.toList := by
    simp
  obtain ⟨body, hfirst, hall⟩ :=
    lexAt_line false 0 first.toList second.toList
  have hsecond := lexAt_add (utf8Length first.toList + 1) false 0 second.toList
  rw [Nat.zero_add] at hfirst hall hsecond
  rw [lex_eq_lexAt, lex_eq_lexAt, lex_eq_lexAt, hchars, hall, hfirst, hsecond]
  cases body with
  | error error => rfl
  | ok front =>
      cases lexAt false 0 second.toList with
      | error error => rfl
      | ok others => simp [Except.map, Except.bind, Except.mapError]

end ChainScript
