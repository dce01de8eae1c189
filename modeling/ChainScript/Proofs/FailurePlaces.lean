import ChainScript.Proofs.FaultPlaces
import ChainScript.Proofs.LexicalErrors
import ChainScript.Proofs.ParserBuilds
import ChainScript.Proofs.Tiling
import ChainScript.ScriptText

/-
Every failure of a script is about a place in its text.

The lexer fails at a piece of the text, a parser at tokens, and running code at
a row of the program that the parser has made of the tokens.  So all of the
places that are reported lie in the text.
-/

namespace ChainScript

/-- A lexical error is about a piece of the text. -/
theorem lexAt_error_inText (before chars : List Char) {afterDot : Bool}
    {error : LexError}
    (hlex : lexAt afterDot (utf8Length before) chars = .error error) :
    error.span.InText (before ++ chars) := by
  obtain ⟨lead, token, after, rfl, habout, -⟩ :=
    exists_isAbout_of_lexAt_error hlex
  rw [← utf8Length_append] at habout
  obtain ⟨_, _, -, -, -, hcovers⟩ := habout.exists_covers
  rw [← List.append_assoc]
  exact hcovers.inText

/-- A report that points into a text: it has a main place, and all of its
places are parts of the text. -/
structure Diagnostic.PointsInto (chars : List Char) (diagnostic : Diagnostic) :
    Prop where
  primary : diagnostic.primarySpan?.isSome = true
  inText : ∀ label ∈ diagnostic.labels, label.span.InText chars
  ends : ∀ label ∈ diagnostic.labels, label.span.stop ≤ utf8Length chars

section Reports

variable {chars : List Char}

theorem Diagnostic.pointsInto {diagnostic : Diagnostic} {span : Span}
    (hprimary : diagnostic.primarySpan? = some span)
    (hlabels : ∀ label ∈ diagnostic.labels, label.span.InText chars) :
    diagnostic.PointsInto chars where
  primary := by rw [hprimary]; rfl
  inText := hlabels
  ends := fun label hlabel => (hlabels label hlabel).stop_le

theorem LexError.pointsInto {error : LexError}
    (hplace : error.span.InText chars) :
    error.diagnostic.PointsInto chars := by
  refine Diagnostic.pointsInto error.primarySpan?_diagnostic ?_
  intro label hlabel
  obtain rfl := List.mem_singleton.mp hlabel
  exact hplace

theorem Exit.pointsInto {exit : Exit} {span : Span}
    (hspan : exit.span = some span) (hplace : span.InText chars) :
    exit.diagnostic.PointsInto chars := by
  refine Diagnostic.pointsInto (exit.primarySpan?_diagnostic.trans hspan) ?_
  intro label hlabel
  simp only [Exit.diagnostic, hspan, List.mem_singleton] at hlabel
  subst hlabel
  exact hplace

end Reports

section Scripts

variable {number limit : Nat} {text : String}

theorem lex_inText {tokens : List Token} (hlex : lex text = .ok tokens) :
    ∀ token ∈ tokens, token.span.InText text.toList :=
  (tiles_of_lexAt hlex).maximalMunch.inText

/-- In a text without larger offsets than spans have room for, the spans of all
tokens are those of their unbounded offsets. -/
theorem clamped_of_lex {tokens : List Token} (hlex : lex text = .ok tokens)
    (hsmall : utf8Length text.toList ≤ Span.maxOffset) :
    ∀ token ∈ tokens,
      Span.clamped token.span.start token.span.stop = token.span := by
  intro token htoken
  have hspan := lex_inText hlex token htoken
  exact Span.clamped_of_le (hspan.start.le_length.trans hsmall)
    (hspan.stop_le.trans hsmall)

/-- The places of a parsed text lie in it. -/
theorem parseText_inText {parsed : ParsedScript}
    (hparsed : parseText number text = .ok parsed) {span : Span}
    (hspan : parsed.program.Places span) : span.InText text.toList := by
  unfold parseText at hparsed
  split at hparsed
  · cases hparsed
  · next tokens hlex =>
    split at hparsed <;> cases hparsed
    exact parse_places_inText (lex_inText hlex) ‹_› hspan

/-- The errors of the lexer and of a parser are about places in the text. -/
theorem parseText_error {error : RunError}
    (herror : parseText number text = .error error) :
    ∃ diagnostic, error.diagnostic? = some diagnostic ∧
      diagnostic.PointsInto text.toList ∧ ∀ exit, error ≠ .fault exit := by
  unfold parseText at herror
  split at herror
  · next bad hlex =>
    cases herror
    exact ⟨_, rfl, LexError.pointsInto (lexAt_error_inText [] _ hlex), nofun⟩
  · next tokens hlex =>
    split at herror <;> cases herror
    next bad hparse =>
    exact ⟨_, rfl, Diagnostic.pointsInto bad.primarySpan?_diagnostic
      (parse_error_inText (lex_inText hlex) hparse), nofun⟩

/-- The text of a value may be missing, but it is never an error. -/
theorem resultText_ne_error (heap : Heap) (value : Value) (error : RunError) :
    resultText heap value ≠ .error error := by
  intro herror
  unfold resultText at herror
  split at herror
  · cases herror
  · cases htext : heap.text? value <;> rw [htext] at herror <;> cases herror

/-- A script that runs by itself fails at a row of its program. -/
theorem ParsedScript.run_error {parsed : ParsedScript} {error : RunError}
    (hrun : parsed.run limit = .error error) :
    ∃ exit span, error = .fault exit ∧ exit.span = some span ∧
      parsed.program.Places span := by
  have hexits : Run.Exits #[parsed.program]
      (Exit.LocatedIn #[parsed.program])
      (runScript Host.silent.natives parsed.script) fun _ => True :=
    exits_runScript exits_askHost_silent parsed.script
  have hend := (hexits
    (.start .empty #[parsed.program] 0 .empty limit ()) rfl).2
  unfold ParsedScript.run at hrun
  dsimp only at hrun
  split at hrun
  · exact absurd hrun (resultText_ne_error _ _ _)
  · next exit after hscript =>
    cases hrun
    rw [hscript] at hend
    obtain ⟨span, hspan, program, hprogram, hplaces⟩ := hend
    obtain rfl := List.mem_singleton.mp (Array.mem_toList_iff.mpr hprogram)
    exact ⟨exit, span, rfl, hspan, hplaces⟩
  · cases hrun

/-- Every failure of a script is reported with places in its text.  A fault is
about an expression, an entry or a statement of the parsed script. -/
theorem failures_located {error : RunError}
    (hfails : runText limit text = .error error) :
    ∃ diagnostic, error.diagnostic? = some diagnostic ∧
      diagnostic.PointsInto text.toList ∧
      ∀ exit, error = .fault exit → ∃ parsed span,
        parseText 0 text = .ok parsed ∧ exit.span = some span ∧
          parsed.program.Places span := by
  unfold runText at hfails
  cases hparsed : parseText 0 text with
  | halted reason =>
      rw [hparsed] at hfails
      cases hfails
  | error failure =>
      rw [hparsed] at hfails
      cases hfails
      obtain ⟨diagnostic, hdiagnostic, hpoints, hplain⟩ :=
        parseText_error hparsed
      exact ⟨diagnostic, hdiagnostic, hpoints, fun exit hexit =>
        absurd hexit (hplain exit)⟩
  | ok parsed =>
      rw [hparsed] at hfails
      obtain ⟨exit, span, rfl, hspan, hplaces⟩ := parsed.run_error hfails
      refine ⟨exit.diagnostic, rfl,
        Exit.pointsInto hspan (parseText_inText hparsed hplaces), ?_⟩
      rintro _ ⟨⟩
      exact ⟨parsed, span, rfl, hspan, hplaces⟩

end Scripts

/-- A script that divides by zero in an array, after a comment that has more
bytes than characters. -/
def dividingScript : String :=
  "# é\n[1 / 0]"

/-- The fault of the division, at its place. -/
def dividingFault : Exit :=
  { reason := .fault .divisionByZero, span := some ⟨6, 11⟩ }

theorem runText_dividingScript :
    runText 1 dividingScript = .error (.fault dividingFault) := by
  decide +kernel

theorem failures_located_dividing :
    runText 1 dividingScript = .error (.fault dividingFault) ∧
      dividingFault.diagnostic.PointsInto dividingScript.toList ∧
      ∃ parsed, parseText 0 dividingScript = .ok parsed ∧
        parsed.program.Places ⟨6, 11⟩ := by
  obtain ⟨diagnostic, hdiagnostic, hpoints, hfault⟩ :=
    failures_located runText_dividingScript
  obtain ⟨parsed, span, hparsed, hspan, hplaces⟩ := hfault dividingFault rfl
  cases hdiagnostic
  cases hspan
  exact ⟨runText_dividingScript, hpoints, parsed, hparsed, hplaces⟩

end ChainScript
