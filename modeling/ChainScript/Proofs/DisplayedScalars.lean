import ChainScript.Proofs.DisplayReadsBack
import ChainScript.Proofs.LexerSteps

/-
What displayed strings, labels and whole numbers are read as.

A quoted string is one token, whose content is the string.  A label is one token
as well, and that token spells the label as a key, unless the label is a
keyword: keywords are written without quotes like any other word.  A whole
number is a script that has the number as its value, unless it is the smallest
one, whose digits are too large without the sign.
-/

namespace ChainScript

open Parse Step

/-- A text that is one lexeme is cut into the token of the lexeme. -/
theorem lex_of_scan {text : String} {shape : Shape} {kind : TokenKind}
    (hscan : scan? text.toList = some ⟨shape, text.toList⟩)
    (hshape : shape ≠ .decimal)
    (hkind : Lexeme.kind ⟨shape, text.toList⟩ 0 = .ok kind) :
    lex text = .ok [⟨kind, ⟨0, utf8Length text.toList⟩⟩,
      ⟨.eof, .point (utf8Length text.toList)⟩] := by
  have htokens : Lexeme.tokens ⟨shape, text.toList⟩ false 0 =
      .ok [⟨kind, ⟨0, 0 + utf8Length text.toList⟩⟩] := by
    rw [Lexeme.tokens, if_neg fun h => hshape h.1, hkind]
    rfl
  have hlexed : lexAt false 0 (text.toList ++ []) = _ :=
    lexAt_lexeme false 0 ⟨shape, text.toList⟩ (by rwa [List.append_nil])
  rw [List.append_nil, htokens, Nat.zero_add] at hlexed
  exact hlexed

section Strings

theorem lex_quote (text : String) :
    lex (quote text) =
      .ok [⟨.str text, ⟨0, utf8Length (quote text).toList⟩⟩,
        ⟨.eof, .point (utf8Length (quote text).toList)⟩] := by
  have hquote : (quote text).toList = quoteChars text.toList := by
    simp [quote]
  have hscan : scan? (quoteChars text.toList ++ []) = _ :=
    scan?_quoted text.toList
  rw [List.append_nil, ← hquote] at hscan
  refine lex_of_scan hscan (by decide) ?_
  rw [hquote]
  simp [Lexeme.kind, quoteChars, unquoteFrom_flatMap_quoteChar]

/-- What Display writes for a string inside an array is cut into one token,
which is the string, and the end of the text. -/
theorem displayed_string_is_one_token (text : String) :
    ∃ shown,
      (∀ (heap : Heap) depth,
        heap.textTo? depth true (.str text) = some shown) ∧
      lex shown = .ok [⟨.str text, ⟨0, utf8Length shown.toList⟩⟩,
        ⟨.eof, .point (utf8Length shown.toList)⟩] := by
  refine ⟨quote text, fun heap depth => ?_, lex_quote text⟩
  cases depth <;> rfl

end Strings

section Labels

variable {name : String}

/-- The kind of token that a label is written as. -/
def labelKind (name : String) : TokenKind :=
  if isPlainLabel name.toList then wordKind name else .str name

theorem lex_word (hplain : isPlainLabel name.toList = true) :
    lex name = .ok [⟨wordKind name, ⟨0, utf8Length name.toList⟩⟩,
      ⟨.eof, .point (utf8Length name.toList)⟩] := by
  cases hword : name.toList with
  | nil => simp [hword, isPlainLabel] at hplain
  | cons first others =>
      rw [hword, isPlainLabel, Bool.and_eq_true] at hplain
      have hscan := scan?_word hplain.1 hplain.2 closes_nil
      rw [List.append_nil, ← hword] at hscan
      rw [← hword]
      exact lex_of_scan hscan (by decide) (by simp [Lexeme.kind])

/-- The text of a label is one token. -/
theorem lex_labelText (name : String) :
    lex (labelText name) =
      .ok [⟨labelKind name, ⟨0, utf8Length (labelText name).toList⟩⟩,
        ⟨.eof, .point (utf8Length (labelText name).toList)⟩] := by
  unfold labelText labelKind
  split
  · next hplain => exact lex_word hplain
  · exact lex_quote name

theorem isPlainLabel_spelling (keyword : Keyword) :
    isPlainLabel keyword.spelling.toList = true := by
  cases keyword <;> decide

/-- The token of a label spells the label unless the label is a keyword. -/
theorem keyOf?_labelKind_iff (name : String) :
    keyOf? (labelKind name) = some (.badge name) ↔
      Keyword.ofSpelling? name = none := by
  cases hkeyword : Keyword.ofSpelling? name with
  | none =>
      unfold labelKind wordKind
      rw [hkeyword]
      split <;> simp [keyOf?]
  | some keyword =>
      have hplain := isPlainLabel_spelling keyword
      rw [Keyword.spelling_of_ofSpelling? hkeyword] at hplain
      simp [labelKind, hplain, wordKind, hkeyword, keyOf?]

/-- In front of a colon the rule for entries takes a token of this kind as a
key, whatever the value is that comes after the colon. -/
def TokenKind.LeadsEntry (kind : TokenKind) (key : Key) : Prop :=
  ∀ (grammar : Grammar) (state after : ParserState) (value : ExprId),
    state.cursor.kind = kind → state.cursor.peek 1 = .mark .colon →
    grammar .expr { state with cursor := state.cursor.advance.advance } =
      (.ok value, after) →
    after.program.HasExpr value →
    ∃ span, entry grammar state = (.ok ⟨.keyed key value, span⟩, after)

theorem TokenKind.leadsEntry_of_keyOf? {kind : TokenKind} {key : Key}
    (hkey : keyOf? kind = some key) : kind.LeadsEntry key := by
  intro grammar state after value hkind hcolon hvalue hexpr
  obtain ⟨row, hrow⟩ := hexpr
  have hellipsis : state.cursor.check (.mark .ellipsis) = false := by
    refine (congrArg (·.sameVariant (.mark .ellipsis)) hkind).trans ?_
    apply TokenKind.sameVariant_mark
    rintro rfl
    cases hkey
  refine ⟨state.cursor.span.merge row.span, ?_⟩
  simp [entry, eat, Cursor.eat, hellipsis, span, Parse.kind, look, hkind, hkey,
    hcolon, advance, hvalue, spanOf, expr, bind_apply, found, hrow,
    Outcome.ofOption]

/-- What Display writes for a label in front of an entry is one token.  The
token spells the label as a key, so that the rule for entries reads it as one,
unless the label is a keyword. -/
theorem displayed_badge_reads_back_iff (name : String) :
    ∃ shown kind,
      (∀ expected, entryLead expected (.badge name) = shown ++ ": ") ∧
      lex shown = .ok [⟨kind, ⟨0, utf8Length shown.toList⟩⟩,
        ⟨.eof, .point (utf8Length shown.toList)⟩] ∧
      (keyOf? kind = some (.badge name) ↔
        Keyword.ofSpelling? name = none) ∧
      (Keyword.ofSpelling? name = none → kind.LeadsEntry (.badge name)) :=
  ⟨labelText name, labelKind name, fun _ => rfl, lex_labelText name,
    keyOf?_labelKind_iff name, fun hword =>
      TokenKind.leadsEntry_of_keyOf? ((keyOf?_labelKind_iff name).mpr hword)⟩

theorem displayed_badge_reads_back_iff_spaced :
    Keyword.ofSpelling? "two words" = none ∧
      ∃ shown kind, entryLead 0 (.badge "two words") = shown ++ ": " ∧
        keyOf? kind = some (.badge "two words") ∧
        kind.LeadsEntry (.badge "two words") := by
  have hword : Keyword.ofSpelling? "two words" = none := by decide
  obtain ⟨shown, kind, hlead, _, hkey, hentry⟩ :=
    displayed_badge_reads_back_iff "two words"
  exact ⟨hword, shown, kind, hlead 0, hkey.mpr hword, hentry hword⟩

/-- An array whose only label is a keyword. -/
def keywordLabelled : Heap where
  frames := #[.ofPairs [(.badge "if", .int 1)]]
  nextLink := 1

/-- A keyword is written without quotes, and is not read as a key. -/
theorem keyword_badge_not_read_back :
    keywordLabelled.text? (.array [⟨0, 0⟩]) = some "[if: 1]" ∧
      entryLead 0 (.badge "if") = "if: " ∧
      lex "if" = .ok [⟨.keyword .ifKw, ⟨0, 2⟩⟩, ⟨.eof, .point 2⟩] ∧
      keyOf? (.keyword .ifKw) = none ∧
      parseText 0 "[if: 1]" = .error (.parse
        { fault := .expectedExpression (.keyword .ifKw), span := ⟨1, 3⟩,
          context := some .arrayLiteral }) := by
  refine ⟨by decide +kernel, by decide +kernel, by decide +kernel, rfl, ?_⟩
  decide +kernel

end Labels

section Integers

variable {heap : Heap} {value : Value}

/-- A text that spells the literal of a value is a script that has a copy of the
value as its value. -/
theorem Tree.Shows.runs {World : Type} {tree : Tree .expr}
    (hshows : tree.Shows heap value) {text : String}
    (hspells : SpellsTree text.toList tree.write) (natives : Natives World)
    (machine : Machine World) (globals : Container Value) (limit : Nat) :
    ∃ parsed copy after, parseText machine.programs.size text = .ok parsed ∧
      runScript natives parsed.script
          (machine.next parsed.program globals limit) = (.ok copy, after) ∧
      heap.Copies after.heap value copy := by
  have hlexes : LexesTo (text.toList ++ [])
      (print (.next (.expr tree) .done)) :=
    hspells [] [.of .eof] closes_nil lexesTo_nil
  rw [List.append_nil] at hlexes
  obtain ⟨tokens, hlex, hsame⟩ := hlexes.lex
  obtain ⟨parsed, hparse, hreads⟩ :=
    parse_of_sameKinds machine.programs.size hsame
  have hruns : (machine.next parsed.program globals limit).programs[
      (machine.next parsed.program globals limit).program]? =
        some parsed.program := by
    simp [Machine.next, Machine.start]
  obtain ⟨copy, after, hrun, _, hcopies⟩ :=
    hreads.makes (parse_built hparse).1 hshows natives hruns
  exact ⟨parsed, copy, _, by simp only [parseText, hlex, hparse], hrun,
    hcopies after (.refl after)⟩

/-- The digits of the smallest number are refused before the sign in front of
them counts. -/
theorem lex_smallest_integer :
    lex (toString Int64.minValue.toInt) =
      .error ⟨⟨1, 20⟩, .invalidNumber "9223372036854775808"⟩ := by
  decide +kernel

/-- What Display writes for a whole number is a script that has the number as
its value, whatever the host and whatever was run before, exactly if the number
is not the smallest one. -/
theorem displayed_integer_reads_back_iff (number : Int64) :
    ∃ text, (∀ heap : Heap, heap.text? (.int number) = some text) ∧
      ((∀ (World : Type) (natives : Natives World) (machine : Machine World)
          (globals : Container Value) (limit : Nat), ∃ parsed after,
          parseText machine.programs.size text = .ok parsed ∧
          runScript natives parsed.script
              (machine.next parsed.program globals limit) =
            (.ok (.int number), after)) ↔
        number ≠ Int64.minValue) := by
  refine ⟨toString number.toInt, fun _ => rfl, ?_, ?_⟩
  · rintro hreads rfl
    obtain ⟨_, _, hparse, _⟩ :=
      hreads Unit Host.silent.natives idleMachine .empty 1
    rw [parseText_of_lex_error lex_smallest_integer] at hparse
    cases hparse
  · intro hmin World natives machine globals limit
    have hplain : Heap.empty.Plain (.int number) := .int hmin
    obtain ⟨tree, hshows⟩ := hplain.exists_shows
    obtain ⟨text, ⟨_, hwrites⟩, hspells⟩ := hshows.spelled
    obtain rfl : toString number.toInt = text := by
      simpa [Heap.textTo?] using hwrites _ (Nat.le_refl _)
    obtain ⟨parsed, copy, after, hparse, hrun, hcopies⟩ :=
      hshows.runs hspells natives machine globals limit
    cases hcopies
    exact ⟨parsed, after, hparse, hrun⟩

theorem smallest_integer_not_read_back :
    (∀ heap : Heap, heap.text? (.int Int64.minValue) =
      some "-9223372036854775808") ∧
    ∀ number, parseText number "-9223372036854775808" =
      .error (.lex ⟨⟨1, 20⟩, .invalidNumber "9223372036854775808"⟩) := by
  have htext : toString Int64.minValue.toInt = "-9223372036854775808" := by
    decide +kernel
  rw [← htext]
  exact ⟨fun _ => rfl, fun _ => parseText_of_lex_error lex_smallest_integer⟩

end Integers

end ChainScript
