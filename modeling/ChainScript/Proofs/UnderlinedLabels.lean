import ChainScript.Proofs.SourceLines
import ChainScript.Report

/-
What a label underlines.

Under the line that a label starts in, the underline starts in the column of the
label and ends with the line at the latest.  Up to there it is as wide as the
label has bytes, not characters.  So it covers exactly the labelled characters
of the line if all of them have one byte, or if they go on to the end of the
line; otherwise it is too wide.  All this takes a line and a column that have
numbers.
-/

namespace ChainScript

section Bytes

theorem utf8Length_eq_length_iff (chars : List Char) :
    utf8Length chars = chars.length ↔ ∀ c ∈ chars, c.utf8Size = 1 := by
  induction chars with
  | nil => simp
  | cons c rest ih =>
      have hsize := c.utf8Size_pos
      have hrest := length_le_utf8Length rest
      rw [List.forall_mem_cons, ← ih, List.length_cons, utf8Length_cons]
      omega

/-- Of two starts of a text the one with fewer bytes is a start of the other. -/
theorem prefix_of_utf8Length_le {chars left right : List Char}
    (hleft : left <+: chars) (hright : right <+: chars)
    (hle : utf8Length left ≤ utf8Length right) : left <+: right := by
  rcases List.prefix_or_prefix_of_prefix hleft hright with hshorter | hlonger
  · exact hshorter
  · obtain ⟨more, rfl⟩ := hlonger
    have hlength := length_le_utf8Length more
    rw [utf8Length_append] at hle
    obtain rfl : more = [] := List.length_eq_zero_iff.mp (by omega)
    simp

end Bytes

/-- A span that lies in a text covers a piece of it. -/
theorem Span.InText.exists_covers {chars : List Char} {span : Span}
    (hspan : span.InText chars) : ∃ piece, span.Covers chars piece := by
  obtain ⟨start, stop⟩ := span
  obtain ⟨hordered, ⟨before, rest, htext, rfl⟩, ⟨front, after, rfl, rfl⟩⟩ :=
    hspan
  obtain ⟨piece, rfl⟩ := prefix_of_utf8Length_le
    (htext ▸ List.prefix_append before rest) (List.prefix_append front after)
    hordered
  exact ⟨piece, before, after, List.append_assoc _ _ _, by simp⟩

theorem Span.Covers.length_eq {chars piece : List Char} {span : Span}
    (hcovers : span.Covers chars piece) : span.length = utf8Length piece := by
  obtain ⟨before, after, _, rfl⟩ := hcovers
  exact Nat.add_sub_cancel_left _ _

/-- Number of the characters that a span covers in a piece of text, which starts
at `offset`. -/
def Span.coverage (span : Span) : Nat → List Char → Nat
  | _, [] => 0
  | offset, c :: rest =>
      (if span.start ≤ offset ∧ offset < span.stop then 1 else 0) +
        span.coverage (offset + c.utf8Size) rest

namespace Span

variable (span : Span) {offset : Nat} {chars : List Char}

theorem coverage_append (offset : Nat) (left right : List Char) :
    span.coverage offset (left ++ right) = span.coverage offset left +
      span.coverage (offset + utf8Length left) right := by
  induction left generalizing offset with
  | nil => simp [coverage]
  | cons c rest ih =>
      simp only [List.cons_append, coverage, ih, utf8Length_cons, Nat.add_assoc]

theorem coverage_of_before (hbefore : offset + utf8Length chars ≤ span.start) :
    span.coverage offset chars = 0 := by
  induction chars generalizing offset with
  | nil => rfl
  | cons c rest ih =>
      have hsize := c.utf8Size_pos
      rw [utf8Length_cons] at hbefore
      rw [coverage, if_neg (by omega), ih (by omega)]

theorem coverage_of_after (hafter : span.stop ≤ offset) :
    span.coverage offset chars = 0 := by
  induction chars generalizing offset with
  | nil => rfl
  | cons c rest ih =>
      rw [coverage, if_neg (by omega), ih (by omega)]

theorem coverage_of_within (hstart : span.start ≤ offset)
    (hstop : offset + utf8Length chars ≤ span.stop) :
    span.coverage offset chars = chars.length := by
  induction chars generalizing offset with
  | nil => rfl
  | cons c rest ih =>
      have hsize := c.utf8Size_pos
      rw [utf8Length_cons] at hstop
      rw [coverage, if_pos (by omega), ih (by omega) (by omega),
        List.length_cons, Nat.add_comm]

end Span

/-- On its first line a span covers either all characters up to the end of the
line or all that it covers at all. -/
theorem CutAt.coverage_cases {chars piece above lead tail below : List Char}
    {shown : List Char} {span : Span}
    (hcut : CutAt chars span.start above lead tail below)
    (hcovers : span.Covers chars piece) (hshown : shown <+: lead ++ tail) :
    span.coverage (utf8Length above) shown ≤ piece.length ∧
    (utf8Length (above ++ shown) ≤ span.stop ∧
        span.coverage (utf8Length above) shown = shown.length - lead.length ∨
      span.stop < utf8Length (above ++ shown) ∧
        span.coverage (utf8Length above) shown = piece.length ∧
        piece.length < shown.length - lead.length) := by
  obtain ⟨before, after, htext, hspan⟩ := hcovers
  obtain rfl : before = above ++ lead := by
    refine eq_of_utf8Length_eq (htext.symm.trans hcut.text |>.trans
      (List.append_assoc _ _ _).symm) ?_
    rw [← hcut.offset_eq, hspan]
  have hstart : span.start = utf8Length above + utf8Length lead := by
    rw [hcut.offset_eq, utf8Length_append]
  have hstop : span.stop = span.start + utf8Length piece := by
    rw [hspan]
  have hbehind : tail ++ below = piece ++ after := by
    have htexts := hcut.text.symm.trans htext
    simpa using htexts
  rcases List.prefix_or_prefix_of_prefix hshown (List.prefix_append lead tail)
    with ⟨rest, rfl⟩ | ⟨visible, rfl⟩
  · -- Only what ends the line is between the text that is shown and the span.
    rw [utf8Length_append] at hstart
    rw [span.coverage_of_before (by omega), utf8Length_append,
      List.length_append]
    omega
  · have hvisible : visible <+: piece ++ after :=
      hbehind ▸ ((List.prefix_append_right_inj lead).mp hshown).trans
        (List.prefix_append tail below)
    have hpiece := List.prefix_append piece after
    rw [span.coverage_append, span.coverage_of_before (by omega), Nat.zero_add,
      ← hstart, List.length_append, Nat.add_sub_cancel_left, utf8Length_append,
      utf8Length_append, ← Nat.add_assoc, ← hstart]
    rcases Nat.lt_or_ge (utf8Length piece) (utf8Length visible) with
      hshort | hlong
    · obtain ⟨more, rfl⟩ :=
        prefix_of_utf8Length_le hpiece hvisible (Nat.le_of_lt hshort)
      rw [utf8Length_append] at hshort ⊢
      have hmore : more ≠ [] := by
        rintro rfl
        simp at hshort
      have hlength := List.length_pos_iff.mpr hmore
      rw [span.coverage_append,
        span.coverage_of_within (Nat.le_refl _) (by omega),
        span.coverage_of_after (by omega), List.length_append]
      omega
    · obtain ⟨more, rfl⟩ := prefix_of_utf8Length_le hvisible hpiece hlong
      rw [utf8Length_append] at hstop hlong
      rw [span.coverage_of_within (Nat.le_refl _) (by omega),
        List.length_append]
      omega

namespace ReportStyle

variable (style : ReportStyle)

/-- A label with its place, its line, and under the line an underline of a given
width after `lead` columns. -/
def underlined (severity : Severity) (label : Label) (name : String)
    (line lead width : Nat) (shown : List Char) : String :=
  let blanks := fun count => String.ofList (List.replicate count ' ')
  let number := toString line
  let underline := String.ofList (List.replicate width label.style.underline)
  "  " ++ arrow label.style ++ " " ++ name ++ ":" ++ number ++ ":" ++
      toString (lead + 1) ++ "\n" ++
    (" " ++ blanks number.length ++ " |\n" ++
      " " ++ number ++ " | " ++ String.ofList shown ++ "\n" ++
      " " ++ blanks number.length ++ " | " ++ blanks lead ++
      (Paint.ofLabel label.style severity).apply style.colors
        (underline ++ " " ++ label.message) ++ "\n")

theorem apply_inj {paint : Paint} {colors : Bool} {text other : String} :
    paint.apply colors text = paint.apply colors other ↔ text = other := by
  cases colors <;> simp [Paint.apply]

/-- Underlines of different widths make different texts. -/
theorem underlined_inj {severity : Severity} {label : Label} {name : String}
    {line lead width other : Nat} {shown : List Char} :
    style.underlined severity label name line lead width shown =
        style.underlined severity label name line lead other shown ↔
      width = other := by
  unfold underlined
  dsimp only
  rw [String.append_right_inj, String.append_left_inj,
    String.append_right_inj, apply_inj, String.append_left_inj,
    String.append_left_inj, String.ofList_inj]
  refine ⟨fun heq => ?_, fun heq => heq ▸ rfl⟩
  simpa using congrArg List.length heq

/-- Where the texts of two numbers stand in front of the same mark that is no
digit, they are texts of the same number. -/
theorem number_inj {mark : Char} (hmark : mark.isDigit = false)
    {number other : Nat} {left right : List Char}
    (heq : (toString number).toList ++ mark :: left =
      (toString other).toList ++ mark :: right) :
    number = other ∧ left = right := by
  have hdigits : ∀ (number : Nat) (rest : List Char),
      (Nat.toDigits 10 number ++ mark :: rest).takeWhile Char.isDigit =
        Nat.toDigits 10 number := by
    intro number rest
    rw [List.takeWhile_append_of_pos fun c hc =>
        Nat.isDigit_of_mem_toDigits (by decide) (by decide) hc,
      List.takeWhile_cons_of_neg (by simp [hmark]), List.append_nil]
  change number.repr.toList ++ _ = other.repr.toList ++ _ at heq
  rw [Nat.toList_repr, Nat.toList_repr] at heq
  have hnumbers := congrArg (List.takeWhile Char.isDigit) heq
  rw [hdigits, hdigits] at hnumbers
  rw [hnumbers] at heq
  have hvalues := congrArg (Nat.ofDigitChars 10 · 0) hnumbers
  simp only [Nat.ofDigitChars_toDigits (b := 10) (by decide) (by decide)]
    at hvalues
  exact ⟨hvalues, (List.cons.inj (List.append_cancel_left heq)).2⟩

/-- The line that names a place, and what is written below it. -/
def placed (front : String) (line column : Nat) (rest : String) : String :=
  front ++ ":" ++ toString line ++ ":" ++ toString column ++ "\n" ++ rest

/-- Different places have different texts. -/
theorem placed_inj {front rest rest' : String} {line line' column column' : Nat}
    (heq : placed front line column rest = placed front line' column' rest') :
    line = line' ∧ column = column' := by
  have hchars := congrArg String.toList heq
  simp only [placed, String.toList_append, List.append_assoc] at hchars
  obtain ⟨hline, hrest⟩ := number_inj (by rfl)
    (List.cons.inj (List.append_cancel_left hchars)).2
  exact ⟨hline, (number_inj (by rfl) hrest).1⟩

/-- A label is shown below the line that names its place. -/
theorem exists_label_eq_placed (source : SourceMap) (colors : Bool)
    (severity : Severity) (label : Label) :
    ∃ rest, (ReportStyle.mk colors (some source)).label severity label =
      placed ("  " ++ arrow label.style ++ " " ++ source.name)
        (source.locate label.span.start).1 (source.locate label.span.start).2
        rest := by
  unfold ReportStyle.label
  dsimp only
  cases source.line? (source.locate label.span.start).1 with
  | none => exact ⟨"", String.append_empty.symm⟩
  | some shown => exact ⟨_, rfl⟩

/-- With the text of the script at hand, a label is shown under the line that it
starts in. -/
theorem label_eq_underlined {source : SourceMap} {colors : Bool}
    {severity : Severity} {label : Label} {above lead tail below : List Char}
    (hcut : CutAt source.chars label.span.start above lead tail below)
    (hlocate : source.locate label.span.start =
      (above.count '\n' + 1, lead.length + 1)) :
    (ReportStyle.mk colors (some source)).label severity label =
      (ReportStyle.mk colors (some source)).underlined severity label
        source.name (above.count '\n' + 1) lead.length
        (underlineWidth (SourceMap.trimLineEnd (lead ++ tail)).length
          (lead.length + 1) label.span.length)
        (SourceMap.trimLineEnd (lead ++ tail)) := by
  unfold ReportStyle.label
  simp only [hlocate, hcut.line?_eq]
  unfold snippet underlined
  dsimp only
  rw [Nat.add_sub_cancel]

end ReportStyle

/-- A label in a text is shown under the line that it starts in, as far to the
right as it starts there.  The underline is as wide as the label has characters
on that line, and one column wide if it has none, exactly if it goes on to the
end of the line or all of its characters have one byte.  Otherwise it is too
wide, but never beyond the end of the line.  The place has to have numbers, which
it has unless the label starts at the largest offset. -/
theorem label_underlines_its_characters_iff {source : SourceMap} (colors : Bool)
    (severity : Severity) {label : Label}
    (hspan : label.span.InText source.chars) :
    ∃ above lead tail below labelled,
      CutAt source.chars label.span.start above lead tail below ∧
      label.span.Covers source.chars labelled ∧
      let style : ReportStyle := ⟨colors, some source⟩
      let line := above.count '\n' + 1
      let shown := SourceMap.trimLineEnd (lead ++ tail)
      let covered := label.span.coverage (utf8Length above) shown
      let numbered := source.locate label.span.start = (line, lead.length + 1)
      (label.span.start < SourceMap.maxNumber → numbered) ∧
      source.line? line = some shown ∧
      (style.label severity label =
          style.underlined severity label source.name line lead.length
            (max 1 covered) shown ↔
        numbered ∧ (utf8Length (above ++ shown) ≤ label.span.stop ∨
          ∀ c ∈ labelled, c.utf8Size = 1)) ∧
      (numbered → ∃ width, style.label severity label =
          style.underlined severity label source.name line lead.length width
            shown ∧
        max 1 covered ≤ width ∧
        width ≤ max 1 (shown.length - lead.length)) := by
  obtain ⟨labelled, hcovers⟩ := hspan.exists_covers
  obtain ⟨above, lead, tail, below, hcut⟩ := hspan.start.exists_cutAt
  have hcoverage := hcut.coverage_cases hcovers (SourceMap.trimLineEnd_prefix _)
  have hlength := hcovers.length_eq
  have hbytes := length_le_utf8Length labelled
  have hempty : labelled.length = 0 → utf8Length labelled = 0 := by
    rw [List.length_eq_zero_iff]
    rintro rfl
    rfl
  refine ⟨above, lead, tail, below, labelled, hcut, hcovers, hcut.locate_eq,
    hcut.line?_eq, ?_, fun hnumbered =>
      ⟨_, ReportStyle.label_eq_underlined hcut hnumbered, ?_⟩⟩
  · -- A label that is shown like this names its place.
    have hshown : ∀ width, (ReportStyle.mk colors (some source)).label severity
        label = (ReportStyle.mk colors (some source)).underlined severity label
          source.name (above.count '\n' + 1) lead.length width
          (SourceMap.trimLineEnd (lead ++ tail)) →
        source.locate label.span.start =
          (above.count '\n' + 1, lead.length + 1) := by
      intro width hlabel
      obtain ⟨rest, hplaced⟩ :=
        ReportStyle.exists_label_eq_placed source colors severity label
      obtain ⟨hline, hcolumn⟩ :=
        ReportStyle.placed_inj (hplaced.symm.trans hlabel)
      exact Prod.ext hline hcolumn
    rw [← and_iff_right_of_imp (hshown _), and_congr_right_iff]
    intro hnumbered
    rw [ReportStyle.label_eq_underlined hcut hnumbered,
      ReportStyle.underlined_inj, ← utf8Length_eq_length_iff]
    unfold ReportStyle.underlineWidth
    rcases hcoverage.2 with ⟨hreaches, hcovered⟩ | ⟨hends, hcovered, hshort⟩
    · refine iff_of_true ?_ (.inl hreaches)
      omega
    · rw [or_iff_right (Nat.not_le_of_lt hends), hlength]
      -- The line goes on behind the label, so that the bytes decide unless
      -- there are more of them than characters left on the line.
      constructor
      · intro hwidth
        omega
      · intro hsingle
        omega
  · unfold ReportStyle.underlineWidth
    omega

/-- The second line ends in a carriage return as well. -/
def twoLines : SourceMap :=
  ⟨"demo", "ä\nßx = ü\r\n"⟩

/-- The last two words of the second line, and its end. -/
def acrossLines : Label :=
  ⟨.secondary, ⟨7, 13⟩, "here"⟩

theorem label_underlines_its_characters_iff_acrossLines :
    acrossLines.span.InText twoLines.chars ∧
    ∃ above lead tail below labelled,
      CutAt twoLines.chars 7 above lead tail below ∧
      acrossLines.span.Covers twoLines.chars labelled ∧
      let line := above.count '\n' + 1
      let shown := SourceMap.trimLineEnd (lead ++ tail)
      (twoLines.locate 7 = (line, lead.length + 1) ∧
        twoLines.line? line = some shown) ∧
      ((ReportStyle.mk true (some twoLines)).label .error acrossLines =
          (ReportStyle.mk true (some twoLines)).underlined .error acrossLines
            "demo" line lead.length
            (max 1 (acrossLines.span.coverage (utf8Length above) shown)) shown ↔
        utf8Length (above ++ shown) ≤ 13 ∨ ∀ c ∈ labelled, c.utf8Size = 1) := by
  have hends : acrossLines.span.Covers twoLines.chars "= ü\r\n".toList :=
    ⟨"ä\nßx ".toList, [], by decide +kernel, by decide +kernel⟩
  have hspan := hends.inText
  obtain ⟨above, lead, tail, below, labelled, hcut, hcovers, hnumbers, hline,
    hreport, _⟩ := label_underlines_its_characters_iff true .error hspan
  have hlocate := hnumbers (by decide)
  exact ⟨hspan, above, lead, tail, below, labelled, hcut, hcovers,
    ⟨hlocate, hline⟩, hreport.trans (and_iff_right hlocate)⟩

/-- The labelled character has two bytes, so two columns are underlined. -/
theorem two_columns_under_one_character :
    let source : SourceMap := ⟨"demo", "éa b"⟩
    let label : Label := ⟨.primary, ⟨0, 2⟩, "here"⟩
    label.span.Covers source.chars ['é'] ∧
      source.line? 1 = some "éa b".toList ∧
      label.span.coverage 0 "éa b".toList = 1 ∧
      (ReportStyle.mk false (some source)).label .error label =
        "  --> demo:1:1\n   |\n 1 | éa b\n   | ^^ here\n" := by
  refine ⟨⟨[], "a b".toList, ?_, ?_⟩, ?_, ?_, ?_⟩ <;> decide +kernel

end ChainScript
