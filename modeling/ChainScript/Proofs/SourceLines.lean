import Mathlib.Data.List.Induction
import Mathlib.Data.List.TakeWhile
import ChainScript.Proofs.Boundaries

/-
The line and the column of an offset, and the text of its line.

An offset between two characters cuts a text into the lines above it, the parts
of its own line in front of it and behind it, and the rest of the text from the
next line feed on.  Lines are counted by the line feeds above, and columns by
the characters in front.  Neither count is larger than the offset, so an offset
of 32 bits that is not the largest one has both of its numbers.
-/

namespace ChainScript

/-- Every character has a byte. -/
theorem length_le_utf8Length (chars : List Char) :
    chars.length ≤ utf8Length chars := by
  induction chars with
  | nil => exact Nat.le_refl 0
  | cons c rest ih =>
      have hsize := c.utf8Size_pos
      rw [List.length_cons, utf8Length_cons]
      omega

/-- The offset is between `lead` and `tail`, which are one line of the text. -/
structure CutAt (chars : List Char) (offset : Nat)
    (above lead tail below : List Char) : Prop where
  text : chars = above ++ (lead ++ (tail ++ below))
  offset_eq : offset = utf8Length (above ++ lead)
  starts : ∀ c ∈ above.getLast?, c = '\n'
  unbroken : '\n' ∉ lead ++ tail
  stops : ∀ c ∈ below.head?, c = '\n'

/-- What is in front of an offset consists of whole lines and the start of
another one. -/
theorem exists_lines_append (chars : List Char) :
    ∃ above lead, chars = above ++ lead ∧
      (∀ c ∈ above.getLast?, c = '\n') ∧ '\n' ∉ lead := by
  induction chars using List.reverseRecOn with
  | nil => exact ⟨[], [], rfl, nofun, List.not_mem_nil⟩
  | append_singleton chars c ih =>
      obtain ⟨above, lead, rfl, hstarts, hlead⟩ := ih
      by_cases hfeed : c = '\n'
      · subst hfeed
        refine ⟨above ++ lead ++ ['\n'], [], (List.append_nil _).symm, ?_,
          List.not_mem_nil⟩
        simp
      · refine ⟨above, lead ++ [c], List.append_assoc _ _ _, hstarts, ?_⟩
        simp [hlead, Ne.symm hfeed]

theorem Boundary.exists_cutAt {chars : List Char} {offset : Nat}
    (hoffset : Boundary chars offset) :
    ∃ above lead tail below, CutAt chars offset above lead tail below := by
  obtain ⟨before, after, rfl, rfl⟩ := hoffset
  obtain ⟨above, lead, rfl, hstarts, hlead⟩ := exists_lines_append before
  refine ⟨above, lead, after.takeWhile (· ≠ '\n'), after.dropWhile (· ≠ '\n'),
    ?_, rfl, hstarts, ?_, ?_⟩
  · rw [List.takeWhile_append_dropWhile, List.append_assoc]
  · rw [List.mem_append]
    rintro (hmem | hmem)
    · exact hlead hmem
    · simpa using List.mem_takeWhile_imp hmem
  · intro c hc
    have hnot := List.head?_dropWhile_not (fun c => decide (c ≠ '\n')) after
    rw [Option.mem_def.mp hc] at hnot
    simpa using hnot

section LineStarts

variable {chars : List Char}

theorem afterFeeds_append (offset : Nat) (left right : List Char) :
    afterFeeds offset (left ++ right) =
      afterFeeds offset left ++
        afterFeeds (offset + utf8Length left) right := by
  induction left generalizing offset with
  | nil => rfl
  | cons c rest ih =>
      simp only [List.cons_append, afterFeeds, ih, utf8Length_cons,
        Nat.add_assoc]
      split <;> rfl

theorem length_afterFeeds (offset : Nat) (chars : List Char) :
    (afterFeeds offset chars).length = chars.count '\n' := by
  induction chars generalizing offset with
  | nil => rfl
  | cons c rest ih =>
      rw [afterFeeds, List.count_cons]
      split <;> simp_all

theorem afterFeeds_eq_nil (offset : Nat) (hunbroken : '\n' ∉ chars) :
    afterFeeds offset chars = [] := by
  rw [← List.length_eq_zero_iff, length_afterFeeds]
  exact List.count_eq_zero_of_not_mem hunbroken

theorem lt_of_mem_afterFeeds {offset start : Nat}
    (hstart : start ∈ afterFeeds offset chars) :
    offset < start ∧ start ≤ offset + utf8Length chars := by
  induction chars generalizing offset with
  | nil => cases hstart
  | cons c rest ih =>
      have hsize := c.utf8Size_pos
      have hrest : start ∈ afterFeeds (offset + c.utf8Size) rest →
          offset < start ∧ start ≤ offset + utf8Length (c :: rest) := by
        intro hmem
        obtain ⟨hlow, hhigh⟩ := ih hmem
        rw [utf8Length_cons]
        omega
      rw [afterFeeds] at hstart
      split at hstart
      · rcases List.mem_cons.mp hstart with rfl | hmem
        · rw [utf8Length_cons]
          omega
        · exact hrest hmem
      · exact hrest hstart

/-- Whole lines end where the last line start says that the next line starts. -/
theorem getLast?_afterFeeds (hstarts : ∀ c ∈ chars.getLast?, c = '\n') :
    (0 :: afterFeeds 0 chars).getLast? = some (utf8Length chars) := by
  rcases List.eq_nil_or_concat chars with rfl | ⟨lines, c, rfl⟩
  · rfl
  · rw [List.concat_eq_append] at hstarts ⊢
    obtain rfl : c = '\n' := hstarts c (by simp)
    rw [afterFeeds_append, ← List.cons_append]
    simp only [afterFeeds, if_true, List.getLast?_concat, utf8Length_append,
      utf8Length_cons, utf8Length_nil, Nat.zero_add, Nat.add_zero]

end LineStarts

namespace SourceMap

theorem oneBased_of_lt {index : Nat} (hindex : index < maxNumber) :
    oneBased index = index + 1 :=
  Nat.min_eq_left hindex

variable {map : SourceMap}

/-- Between the ends of a span is the piece of text that it covers. -/
theorem between?_of_covers {span : Span} {piece : List Char}
    (hcovers : span.Covers map.chars piece) :
    map.between? span.start span.stop = some piece := by
  obtain ⟨before, after, htext, rfl⟩ := hcovers
  simp [between?, htext, dropBytes?_append, takeBytes?_append]

theorem trimLineEnd_prefix (line : List Char) : trimLineEnd line <+: line := by
  have hsuffix : line.reverse.dropWhile (fun c => c = '\n' || c = '\r') <:+
      line.reverse :=
    List.dropWhile_suffix _
  simpa [trimLineEnd] using List.reverse_prefix.mpr hsuffix

theorem trimLineEnd_append_feed (line : List Char) :
    trimLineEnd (line ++ ['\n']) = trimLineEnd line := by
  simp [trimLineEnd]

end SourceMap

namespace CutAt

variable {map : SourceMap} {offset : Nat} {above lead tail below : List Char}
  (hcut : CutAt map.chars offset above lead tail below)

include hcut

theorem lineStarts_eq :
    map.lineStarts = (0 :: afterFeeds 0 above) ++
      afterFeeds (utf8Length (above ++ (lead ++ tail))) below := by
  rw [SourceMap.lineStarts, hcut.text, afterFeeds_append,
    ← List.append_assoc lead, afterFeeds_append _ (lead ++ tail),
    afterFeeds_eq_nil _ hcut.unbroken]
  simp

/-- The index of the line is the number of line feeds above it, and the index of
the column is the number of characters in front of the offset. -/
theorem locate_eq_oneBased :
    map.locate offset = (SourceMap.oneBased (above.count '\n'),
      SourceMap.oneBased lead.length) := by
  have hwhole : offset ≤ utf8Length map.chars := by
    rw [hcut.offset_eq, hcut.text]
    simp
  have hoffset := hcut.offset_eq
  have hearly : ∀ start ∈ 0 :: afterFeeds 0 above, start ≤ offset := by
    intro start hmem
    rcases List.mem_cons.mp hmem with rfl | hmem
    · exact Nat.zero_le _
    · have hhigh := (lt_of_mem_afterFeeds hmem).2
      rw [utf8Length_append] at hoffset
      omega
  have hlate : ∀ start ∈ afterFeeds (utf8Length (above ++ (lead ++ tail)))
      below, offset < start := by
    intro start hmem
    have hlow := (lt_of_mem_afterFeeds hmem).1
    simp only [utf8Length_append] at hlow hoffset
    omega
  have hbefore : map.lineStarts.takeWhile (· ≤ offset) =
      0 :: afterFeeds 0 above := by
    rw [hcut.lineStarts_eq, List.takeWhile_append_of_pos
      fun start hmem => decide_eq_true (hearly start hmem)]
    refine (congrArg _ (List.takeWhile_eq_nil_iff.mpr fun hpos => ?_)).trans
      (List.append_nil _)
    simpa using hlate _ (List.get_mem _ ⟨0, hpos⟩)
  have hlead : (⟨utf8Length above, offset⟩ : Span).Covers map.chars lead :=
    ⟨above, tail ++ below, hcut.text, by rw [hcut.offset_eq, utf8Length_append]⟩
  have hcolumn := SourceMap.between?_of_covers hlead
  unfold SourceMap.locate
  dsimp only
  rw [Nat.min_eq_left hwhole, hbefore, List.getLastD_eq_getLast?,
    getLast?_afterFeeds hcut.starts]
  simp [hcolumn, length_afterFeeds]

theorem count_le : above.count '\n' ≤ offset := by
  have hcount : above.count '\n' ≤ above.length := List.count_le_length
  have hbytes := length_le_utf8Length above
  rw [hcut.offset_eq, utf8Length_append]
  omega

theorem length_le : lead.length ≤ offset := by
  have hbytes := length_le_utf8Length lead
  rw [hcut.offset_eq, utf8Length_append]
  omega

/-- The line is one more than the number of line feeds above it, and the column
is one more than the number of characters in front of the offset. -/
theorem locate_eq (hoffset : offset < SourceMap.maxNumber) :
    map.locate offset = (above.count '\n' + 1, lead.length + 1) := by
  rw [hcut.locate_eq_oneBased,
    SourceMap.oneBased_of_lt (hcut.count_le.trans_lt hoffset),
    SourceMap.oneBased_of_lt (hcut.length_le.trans_lt hoffset)]

/-- The text of the line is what is in front of the offset and behind it. -/
theorem line?_eq :
    map.line? (above.count '\n' + 1) =
      some (SourceMap.trimLineEnd (lead ++ tail)) := by
  have hlength : (0 :: afterFeeds 0 above).length = above.count '\n' + 1 := by
    rw [List.length_cons, length_afterFeeds]
  have hstart : map.lineStarts[above.count '\n']? =
      some (utf8Length above) := by
    rw [hcut.lineStarts_eq, List.getElem?_append_left (by omega),
      ← getLast?_afterFeeds hcut.starts, List.getLast?_eq_getElem?, hlength]
    rfl
  have hnext : map.lineStarts[above.count '\n' + 1]? =
      (afterFeeds (utf8Length (above ++ (lead ++ tail))) below)[0]? := by
    rw [hcut.lineStarts_eq, List.getElem?_append_right (by omega), hlength,
      Nat.sub_self]
  have hline : ∀ stop piece,
      (⟨utf8Length above, stop⟩ : Span).Covers map.chars piece →
      map.lineStarts[above.count '\n' + 1]?.getD (utf8Length map.chars) =
        stop →
      map.line? (above.count '\n' + 1) =
        some (SourceMap.trimLineEnd piece) := by
    intro stop piece hcovers hstop
    have hpiece := SourceMap.between?_of_covers hcovers
    simp [SourceMap.line?, hstart, hstop, hpiece]
  have hfeed : '\n'.utf8Size = 1 := rfl
  cases hbelow : below with
  | nil =>
      refine hline (utf8Length map.chars) _ ⟨above, [], ?_, ?_⟩ ?_
      · simp [hcut.text, hbelow]
      · simp [hcut.text, hbelow]
      · rw [hnext, hbelow]
        rfl
  | cons c rest =>
      obtain rfl : c = '\n' := hcut.stops c (by simp [hbelow])
      rw [← SourceMap.trimLineEnd_append_feed]
      refine hline (utf8Length (above ++ (lead ++ tail)) + 1) _
        ⟨above, rest, ?_, ?_⟩ ?_
      · simp [hcut.text, hbelow]
      · simp [hfeed, Nat.add_assoc]
      · rw [hnext, hbelow]
        simp [afterFeeds, hfeed]

end CutAt

end ChainScript
