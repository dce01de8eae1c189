import Mathlib.Data.List.DropRight
import Mathlib.Data.Prod.Lex
import Mathlib.Order.Monotone.Basic
import ChainScript.Proofs.SourceLines

/-
Lines and columns of all offsets, and all lines of a text.

The text in front of an offset decides its line and its column: the line feeds
in it are counted, and the characters behind the last of them.  One more
character in front moves the offset on, either in its line or to the next one,
so no two offsets between characters have the same place, as long as there are
numbers for both.  The lines themselves are what the line feeds split the text
into.
-/

namespace ChainScript

/-- The line and the column right behind a piece of text: one more than the
number of its line feeds, and one more than the number of characters since the
last of them. -/
def placeBehind (before : List Char) : Nat × Nat :=
  (before.count '\n' + 1, (before.rtakeWhile (· ≠ '\n')).length + 1)

section Places

theorem placeBehind_concat (before : List Char) (c : Char) :
    placeBehind (before ++ [c]) =
      if c = '\n' then ((placeBehind before).1 + 1, 1)
      else ((placeBehind before).1, (placeBehind before).2 + 1) := by
  by_cases hfeed : c = '\n'
  · simp [placeBehind, hfeed]
  · rw [placeBehind, List.rtakeWhile_concat_pos _ _ _ (by simpa using hfeed)]
    simp [placeBehind, hfeed]

/-- Behind whole lines and the start of another one, the column is counted from
the start of that line. -/
theorem placeBehind_append {above lead : List Char}
    (hstarts : ∀ c ∈ above.getLast?, c = '\n') (hlead : '\n' ∉ lead) :
    placeBehind (above ++ lead) = (above.count '\n' + 1, lead.length + 1) := by
  induction lead using List.reverseRecOn with
  | nil =>
      rcases List.eq_nil_or_concat above with rfl | ⟨lines, c, rfl⟩
      · rfl
      · obtain rfl : c = '\n' := hstarts c (by simp)
        simp [placeBehind]
  | append_singleton lead c ih =>
      have hothers : '\n' ∉ lead := fun hmem => hlead (by simp [hmem])
      have hc : c ≠ '\n' := by
        rintro rfl
        exact hlead (by simp)
      rw [← List.append_assoc, placeBehind_concat, if_neg hc, ih hothers]
      simp

/-- A further character leads further on. -/
theorem placeBehind_lt_concat (before : List Char) (c : Char) :
    toLex (placeBehind before) < toLex (placeBehind (before ++ [c])) := by
  rw [Prod.Lex.toLex_lt_toLex, placeBehind_concat]
  split
  · exact .inl (Nat.lt_succ_self _)
  · exact .inr ⟨rfl, Nat.lt_succ_self _⟩

theorem placeBehind_lt_append (before : List Char) {more : List Char}
    (hmore : more ≠ []) :
    toLex (placeBehind before) < toLex (placeBehind (before ++ more)) := by
  induction more using List.reverseRecOn with
  | nil => exact absurd rfl hmore
  | append_singleton more c ih =>
      have hlast := placeBehind_lt_concat (before ++ more) c
      rw [List.append_assoc] at hlast
      by_cases hnil : more = []
      · subst hnil
        simpa using hlast
      · exact (ih hnil).trans hlast

/-- Every byte adds at most one to the line and the column together. -/
theorem placeBehind_add_le (before : List Char) :
    (placeBehind before).1 + (placeBehind before).2 ≤
      utf8Length before + 2 := by
  induction before using List.reverseRecOn with
  | nil => exact Nat.le_refl 2
  | append_singleton before c ih =>
      have hsize := c.utf8Size_pos
      have hcolumn : 1 ≤ (placeBehind before).2 := Nat.le_add_left 1 _
      rw [placeBehind_concat, utf8Length_append, utf8Length_cons,
        utf8Length_nil]
      split <;> dsimp only <;> omega

/-- A place as far as there are numbers for it. -/
def clampPlace (place : Nat × Nat) : Nat × Nat :=
  (min place.1 SourceMap.maxNumber, min place.2 SourceMap.maxNumber)

/-- Behind fewer bytes than the largest number there are numbers for all
places. -/
theorem clampPlace_of_lt {before : List Char}
    (hsmall : utf8Length before < SourceMap.maxNumber) :
    clampPlace (placeBehind before) = placeBehind before := by
  have hadd := placeBehind_add_le before
  have hline : 1 ≤ (placeBehind before).1 := Nat.le_add_left 1 _
  have hcolumn : 1 ≤ (placeBehind before).2 := Nat.le_add_left 1 _
  rw [clampPlace, Nat.min_eq_left (by omega), Nat.min_eq_left (by omega)]

/-- Behind as many bytes as the largest number one of the two may be clamped, and
then the other one is the first. -/
theorem clampPlace_le_clampPlace {left right : List Char}
    (hlt : toLex (placeBehind left) < toLex (placeBehind right))
    (hleft : utf8Length left < SourceMap.maxNumber)
    (hright : utf8Length right ≤ SourceMap.maxNumber) :
    toLex (clampPlace (placeBehind left)) ≤
      toLex (clampPlace (placeBehind right)) := by
  have hadd := placeBehind_add_le left
  have hadd' := placeBehind_add_le right
  have hline : 1 ≤ (placeBehind left).1 := Nat.le_add_left 1 _
  have hcolumn : 1 ≤ (placeBehind left).2 := Nat.le_add_left 1 _
  have hline' : 1 ≤ (placeBehind right).1 := Nat.le_add_left 1 _
  have hcolumn' : 1 ≤ (placeBehind right).2 := Nat.le_add_left 1 _
  rw [clampPlace_of_lt hleft, Prod.Lex.toLex_le_toLex]
  rw [Prod.Lex.toLex_lt_toLex] at hlt
  simp only [clampPlace]
  omega

end Places

section Lines

theorem length_splitOn_feed (chars : List Char) :
    (chars.splitOn '\n').length = chars.count '\n' + 1 := by
  rw [List.splitOn_eq_splitOnP]
  induction chars with
  | nil => rfl
  | cons c rest ih =>
      rw [List.splitOnP_cons_eq_if_modifyHead, List.count_cons]
      split <;> simp_all

variable {chars : List Char} {offset : Nat} {above lead tail below : List Char}

/-- The line of an offset is the piece that comes after as many others as there
are line feeds above it. -/
theorem CutAt.getElem?_splitOn
    (hcut : CutAt chars offset above lead tail below) :
    (chars.splitOn '\n')[above.count '\n']? = some (lead ++ tail) := by
  have hline : ((lead ++ (tail ++ below)).splitOn '\n')[0]? =
      some (lead ++ tail) := by
    have hplain : ∀ c ∈ lead ++ tail, (c == '\n') = false := by
      intro c hc
      rw [beq_eq_false_iff_ne]
      rintro rfl
      exact hcut.unbroken hc
    rw [← List.append_assoc, List.splitOn_eq_splitOnP]
    cases hbelow : below with
    | nil => rw [List.append_nil, List.splitOnP_eq_singleton hplain]; rfl
    | cons c rest =>
        obtain rfl : c = '\n' := hcut.stops c (by simp [hbelow])
        rw [List.splitOnP_append_cons_of_forall_mem hplain _ (by rfl)]
        rfl
  rw [hcut.text]
  rcases List.eq_nil_or_concat above with hnil | ⟨lines, c, hconcat⟩
  · simpa [hnil] using hline
  · obtain rfl : c = '\n' := hcut.starts c (by simp [hconcat])
    have hlength := length_splitOn_feed lines
    rw [List.splitOn_eq_splitOnP] at hline hlength ⊢
    rw [hconcat, List.concat_eq_append, List.append_assoc,
      List.singleton_append, List.splitOnP_append_cons _ _ (by rfl),
      List.getElem?_append_right (by simp [hlength])]
    simpa [hlength] using hline

/-- What is above the line of an offset and in front of the offset in it is all
that is in front of the offset. -/
theorem CutAt.append_eq {before after : List Char}
    (hcut : CutAt chars offset above lead tail below)
    (htext : chars = before ++ after) (hoffset : offset = utf8Length before) :
    above ++ lead = before := by
  have htexts : above ++ lead ++ (tail ++ below) = before ++ after := by
    rw [List.append_assoc, ← hcut.text, htext]
  exact eq_of_utf8Length_eq htexts (hcut.offset_eq.symm.trans hoffset)

theorem exists_append_count {line : Nat} (hline : line ≤ chars.count '\n') :
    ∃ before after, chars = before ++ after ∧ before.count '\n' = line := by
  induction chars generalizing line with
  | nil =>
      obtain rfl : line = 0 := Nat.le_zero.mp hline
      exact ⟨[], [], rfl, rfl⟩
  | cons c rest ih =>
      cases line with
      | zero => exact ⟨[], c :: rest, rfl, rfl⟩
      | succ line =>
          rw [List.count_cons] at hline
          by_cases hfeed : c = '\n'
          · have hfewer : line ≤ rest.count '\n' := by simpa [hfeed] using hline
            obtain ⟨before, after, rfl, hcount⟩ := ih hfewer
            exact ⟨c :: before, after, rfl, by simp [hfeed, hcount]⟩
          · have hall : line + 1 ≤ rest.count '\n' := by
              simpa [hfeed] using hline
            obtain ⟨before, after, rfl, hcount⟩ := ih hall
            exact ⟨c :: before, after, rfl, by simp [hfeed, hcount]⟩

/-- There is a line below any number of line feeds that the text has. -/
theorem exists_cutAt_count {line : Nat} (hline : line ≤ chars.count '\n') :
    ∃ offset above lead tail below,
      CutAt chars offset above lead tail below ∧ above.count '\n' = line := by
  obtain ⟨before, after, htext, rfl⟩ := exists_append_count hline
  have hoffset : Boundary chars (utf8Length before) := ⟨before, after, htext, rfl⟩
  obtain ⟨above, lead, tail, below, hcut⟩ := hoffset.exists_cutAt
  refine ⟨_, above, lead, tail, below, hcut, ?_⟩
  have hlead : '\n' ∉ lead := fun hmem =>
    hcut.unbroken (List.mem_append_left tail hmem)
  rw [← hcut.append_eq htext rfl, List.count_append,
    List.count_eq_zero_of_not_mem hlead, Nat.add_zero]

end Lines

namespace SourceMap

variable (map : SourceMap)

/-- An offset past the end is located at the end. -/
theorem locate_min (offset : Nat) :
    map.locate (min offset (utf8Length map.chars)) = map.locate offset := by
  simp only [locate, Nat.min_assoc, Nat.min_self]

/-- What is in front of an offset decides its place. -/
theorem locate_eq_clamp {offset : Nat} {before after : List Char}
    (htext : map.chars = before ++ after)
    (hoffset : min offset (utf8Length map.chars) = utf8Length before) :
    map.locate offset = clampPlace (placeBehind before) := by
  have hboundary : Boundary map.chars (utf8Length before) :=
    ⟨before, after, htext, rfl⟩
  obtain ⟨above, lead, tail, below, hcut⟩ := hboundary.exists_cutAt
  have hlead : '\n' ∉ lead := fun hmem =>
    hcut.unbroken (List.mem_append_left tail hmem)
  rw [← locate_min, hoffset, hcut.locate_eq_oneBased,
    ← hcut.append_eq htext rfl, placeBehind_append hcut.starts hlead]
  rfl

theorem locate_eq_clamp_length {before after : List Char}
    (htext : map.chars = before ++ after) :
    map.locate (utf8Length before) = clampPlace (placeBehind before) := by
  refine map.locate_eq_clamp htext (Nat.min_eq_left ?_)
  rw [htext, utf8Length_append]
  exact Nat.le_add_right _ _

theorem lineCount_eq : map.lineCount = map.chars.count '\n' + 1 := by
  rw [lineCount, lineStarts, List.length_cons, length_afterFeeds]

/-- The lines are what the line feeds split the text into. -/
theorem line?_succ (line : Nat) :
    map.line? (line + 1) =
      (map.chars.splitOn '\n')[line]?.map trimLineEnd := by
  have hlength := length_splitOn_feed map.chars
  by_cases hline : line ≤ map.chars.count '\n'
  · obtain ⟨_, above, lead, tail, below, hcut, rfl⟩ := exists_cutAt_count hline
    rw [hcut.line?_eq, hcut.getElem?_splitOn]
    rfl
  · have hstart : map.lineStarts[line]? = none := by
      have hcount := map.lineCount_eq
      rw [lineCount] at hcount
      exact List.getElem?_eq_none (by omega)
    rw [List.getElem?_eq_none (by omega)]
    simp [line?, hstart]

theorem isSome_line? (line : Nat) :
    (map.line? line).isSome = true ↔ 1 ≤ line ∧ line ≤ map.lineCount := by
  have hlength := length_splitOn_feed map.chars
  cases line with
  | zero => simp [line?]
  | succ line =>
      rw [line?_succ, Option.isSome_map, isSome_getElem?, hlength, lineCount_eq]
      omega

/-- Wherever an offset is, it is in a line of the text. -/
theorem isSome_line?_locate (offset : Nat) :
    (map.line? (map.locate offset).1).isSome = true := by
  have hbefore := (List.takeWhile_sublist (· ≤ min offset
    (utf8Length map.chars)) (l := map.lineStarts)).length_le
  have hcount := map.lineCount_eq
  have hmax : 1 ≤ maxNumber := by decide
  rw [isSome_line?]
  simp only [locate, oneBased]
  rw [lineCount] at hcount ⊢
  omega

/-- Offsets between characters are in the order of the texts in front of them. -/
theorem placeBehind_lt {left right other rest : List Char}
    (hleft : map.chars = left ++ rest) (hright : map.chars = right ++ other)
    (hlt : utf8Length left < utf8Length right) :
    toLex (placeBehind left) < toLex (placeBehind right) := by
  rcases List.prefix_or_prefix_of_prefix
      (hleft ▸ List.prefix_append left rest)
      (hright ▸ List.prefix_append right other) with ⟨more, rfl⟩ | ⟨more, rfl⟩
  · refine placeBehind_lt_append left ?_
    rintro rfl
    simp at hlt
  · rw [utf8Length_append] at hlt
    omega

/-- Offsets between characters are located in their order. -/
theorem strictMonoOn_locate :
    StrictMonoOn (fun offset => toLex (map.locate offset))
      {offset | Boundary map.chars offset ∧ offset < maxNumber} := by
  rintro _ ⟨⟨left, rest, hleft, rfl⟩, hsmall⟩ _ ⟨⟨right, other, hright, rfl⟩,
    hsmall'⟩ hlt
  dsimp only
  rw [map.locate_eq_clamp_length hleft, map.locate_eq_clamp_length hright,
    clampPlace_of_lt hsmall, clampPlace_of_lt hsmall']
  exact map.placeBehind_lt hleft hright hlt

/-- Not even the largest offset of 32 bits is located in front of another
one. -/
theorem monotoneOn_locate :
    MonotoneOn (fun offset => toLex (map.locate offset))
      {offset | Boundary map.chars offset ∧ offset ≤ maxNumber} := by
  rintro _ ⟨⟨left, rest, hleft, rfl⟩, -⟩ _ ⟨⟨right, other, hright, rfl⟩,
    hsmall⟩ hle
  dsimp only
  rw [map.locate_eq_clamp_length hleft, map.locate_eq_clamp_length hright]
  rcases Nat.lt_or_eq_of_le hle with hlt | heq
  · have hplaces := map.placeBehind_lt hleft hright hlt
    exact clampPlace_le_clampPlace hplaces (hlt.trans_le hsmall) hsmall
  · obtain rfl := eq_of_utf8Length_eq (hleft.symm.trans hright) heq
    exact le_refl _

/-- The place of an offset, or of the end of the text if it is past the end, is
the one right behind the text in front of it, and neither number outgrows the
bytes of that text.  Only numbers that do not fit in 32 bits are replaced by the
largest one, and there are none in front of an offset below it.  The lines are
numbered from one to their count, each is the piece between two line feeds
without what ends it, and every located offset is in one of them.  Offsets
between characters are located in their order, and those below the largest
number in different places. -/
theorem locations_exact :
    (∀ offset before after, map.chars = before ++ after →
      min offset (utf8Length map.chars) = utf8Length before →
      map.locate offset = clampPlace (placeBehind before) ∧
        (placeBehind before).1 + (placeBehind before).2 ≤
          utf8Length before + 2 ∧
        (utf8Length before < maxNumber →
          map.locate offset = placeBehind before)) ∧
    (∀ line, (map.line? line).isSome = true ↔
      1 ≤ line ∧ line ≤ map.lineCount) ∧
    (∀ line, map.line? (line + 1) = (map.chars.splitOn '\n')[line]?.map
      (List.rdropWhile fun c => c = '\n' || c = '\r')) ∧
    (∀ offset, (map.line? (map.locate offset).1).isSome = true) ∧
    MonotoneOn (fun offset => toLex (map.locate offset))
      {offset | Boundary map.chars offset ∧ offset ≤ maxNumber} ∧
    StrictMonoOn (fun offset => toLex (map.locate offset))
      {offset | Boundary map.chars offset ∧ offset < maxNumber} ∧
    Set.InjOn map.locate
      {offset | Boundary map.chars offset ∧ offset < maxNumber} := by
  refine ⟨?_, map.isSome_line?, map.line?_succ, map.isSome_line?_locate,
    map.monotoneOn_locate, map.strictMonoOn_locate, ?_⟩
  · intro offset before after htext hoffset
    have hlocate := map.locate_eq_clamp htext hoffset
    refine ⟨hlocate, placeBehind_add_le before, fun hsmall => ?_⟩
    rw [hlocate, clampPlace_of_lt hsmall]
  · intro offset hoffset other hother hsame
    exact map.strictMonoOn_locate.injOn hoffset hother (congrArg toLex hsame)

/-- The third line ends in a carriage return, and the fourth one is empty. -/
theorem locations_exact_fourLines :
    let map : SourceMap := ⟨"demo", "é\n\nß=x\r\n"⟩
    map.chars = "é\n\nß=".toList ++ "x\r\n".toList ∧
      min 7 (utf8Length map.chars) = utf8Length "é\n\nß=".toList ∧
      map.locate 7 = (3, 3) ∧
      map.chars = map.chars ++ [] ∧
      min 100 (utf8Length map.chars) = utf8Length map.chars ∧
      map.locate 100 = (4, 1) := by
  intro map
  have hinside : map.chars = "é\n\nß=".toList ++ "x\r\n".toList := by
    decide +kernel
  have hoffset : min 7 (utf8Length map.chars) =
      utf8Length "é\n\nß=".toList := by
    decide +kernel
  have hend : min 100 (utf8Length map.chars) = utf8Length map.chars := by
    decide +kernel
  have hplaces := map.locations_exact.1
  refine ⟨hinside, hoffset, ?_, (List.append_nil _).symm, hend, ?_⟩
  · exact ((hplaces 7 _ _ hinside hoffset).2.2 (by decide +kernel)).trans
      (by decide +kernel)
  · exact ((hplaces 100 _ _ (List.append_nil _).symm hend).2.2
      (by decide +kernel)).trans (by decide +kernel)

/-- A text of one line without an end, which consists of one letter. -/
def singleLine (length : Nat) : SourceMap :=
  ⟨"demo", String.ofList (List.replicate length 'a')⟩

theorem chars_singleLine (before after : Nat) :
    (singleLine (before + after)).chars =
      List.replicate before 'a' ++ List.replicate after 'a' := by
  rw [chars, singleLine, String.toList_ofList, List.replicate_add]

theorem utf8Length_replicate_a (length : Nat) :
    utf8Length (List.replicate length 'a') = length := by
  induction length with
  | zero => rfl
  | succ length ih =>
      rw [List.replicate_succ, utf8Length_cons, ih, Nat.add_comm]
      rfl

theorem placeBehind_replicate_a (length : Nat) :
    placeBehind (List.replicate length 'a') = (1, length + 1) := by
  induction length with
  | zero => rfl
  | succ length ih =>
      rw [List.replicate_succ', placeBehind_concat, if_neg (by decide), ih]

theorem locate_singleLine (before after : Nat) :
    (singleLine (before + after)).locate before = (1, oneBased before) := by
  have hlocate := (singleLine (before + after)).locate_eq_clamp_length
    (chars_singleLine before after)
  rw [utf8Length_replicate_a, placeBehind_replicate_a] at hlocate
  exact hlocate

theorem boundary_singleLine (before after : Nat) :
    Boundary (singleLine (before + after)).chars before :=
  ⟨_, _, chars_singleLine before after, (utf8Length_replicate_a before).symm⟩

/-- In a text of as many letters as the largest number there is no column number
left for the end of the text, so that it is located in the column of the last
letter. -/
theorem last_columns_coincide :
    let map := singleLine 4294967295
    utf8Length map.chars < 4294967296 ∧
      Boundary map.chars 4294967294 ∧ Boundary map.chars 4294967295 ∧
      map.locate 4294967294 = (1, 4294967295) ∧
      map.locate 4294967295 = (1, 4294967295) := by
  refine ⟨?_, boundary_singleLine 4294967294 1, boundary_singleLine 4294967295 0,
    locate_singleLine 4294967294 1, locate_singleLine 4294967295 0⟩
  have hlength := utf8Length_replicate_a 4294967295
  rw [singleLine, chars, String.toList_ofList, hlength]
  decide

end SourceMap

end ChainScript
