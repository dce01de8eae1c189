import ChainScript.SourceMap
import ChainScript.Span

/-
Offsets between characters, and the spans that lie in a text.

A span lies in a text if it is not written backwards and both of its ends are
between characters.  The smallest span covering two such spans is one too.
-/

namespace ChainScript

/-- The offset lies between two characters of the text, or at one of its ends. -/
def Boundary (chars : List Char) (offset : Nat) : Prop :=
  ∃ before after, chars = before ++ after ∧ offset = utf8Length before

variable {chars : List Char}

theorem boundary_zero : Boundary chars 0 :=
  ⟨[], chars, rfl, rfl⟩

theorem boundary_append (before after : List Char) :
    Boundary (before ++ after) (utf8Length before) :=
  ⟨before, after, rfl, rfl⟩

theorem Boundary.le_length {offset : Nat} (hoffset : Boundary chars offset) :
    offset ≤ utf8Length chars := by
  obtain ⟨before, after, rfl, rfl⟩ := hoffset
  simp

/-- Where the bytes before two boundaries are as many, the texts before them
are the same. -/
theorem eq_of_utf8Length_eq {first second left right : List Char}
    (htexts : first ++ left = second ++ right)
    (hlength : utf8Length first = utf8Length second) : first = second := by
  have htake := takeBytes?_append second right
  rw [← hlength, ← htexts, takeBytes?_append] at htake
  exact Option.some.inj htake

/-- The span is part of the text. -/
structure Span.InText (chars : List Char) (span : Span) : Prop where
  ordered : span.start ≤ span.stop
  start : Boundary chars span.start
  stop : Boundary chars span.stop

/-- The span covers this piece of the text. -/
def Span.Covers (chars : List Char) (span : Span) (piece : List Char) : Prop :=
  ∃ before after, chars = before ++ (piece ++ after) ∧
    span = ⟨utf8Length before, utf8Length before + utf8Length piece⟩

namespace Span

theorem covers_append (before piece after : List Char) :
    Covers (before ++ (piece ++ after))
      ⟨utf8Length before, utf8Length before + utf8Length piece⟩ piece :=
  ⟨before, after, rfl, rfl⟩

theorem covers_nil (before after : List Char) :
    Covers (before ++ after) ⟨utf8Length before, utf8Length before⟩ [] :=
  ⟨before, after, rfl, rfl⟩

theorem Covers.inText {span : Span} {piece : List Char}
    (hcovers : span.Covers chars piece) : span.InText chars := by
  obtain ⟨before, after, rfl, rfl⟩ := hcovers
  refine ⟨Nat.le_add_right _ _, boundary_append _ _, ?_⟩
  rw [← utf8Length_append, ← List.append_assoc]
  exact boundary_append _ _

/-- A span covers one piece only. -/
theorem Covers.unique {span : Span} {first second : List Char}
    (hfirst : span.Covers chars first) (hsecond : span.Covers chars second) :
    first = second := by
  obtain ⟨before, after, hchars, rfl⟩ := hfirst
  obtain ⟨other, rest, hother, hspan⟩ := hsecond
  obtain ⟨hstart, hstop⟩ := Span.mk.inj hspan
  have htexts : before ++ (first ++ after) = other ++ (second ++ rest) :=
    hchars.symm.trans hother
  obtain rfl := eq_of_utf8Length_eq htexts hstart
  exact eq_of_utf8Length_eq (List.append_cancel_left htexts) (by omega)

theorem inText_origin : InText chars .origin :=
  ⟨Nat.le_refl 0, boundary_zero, boundary_zero⟩

theorem InText.merge {left right : Span} (hleft : left.InText chars)
    (hright : right.InText chars) : (left.merge right).InText chars := by
  have hordered := hleft.ordered
  refine ⟨?_, ?_, ?_⟩
  · simp only [Span.merge]
    omega
  · by_cases hle : left.start ≤ right.start
    · simpa [Span.merge, Nat.min_eq_left hle] using hleft.start
    · have hge : right.start ≤ left.start := by omega
      simpa [Span.merge, Nat.min_eq_right hge] using hright.start
  · by_cases hle : left.stop ≤ right.stop
    · simpa [Span.merge, Nat.max_eq_right hle] using hright.stop
    · have hge : right.stop ≤ left.stop := by omega
      simpa [Span.merge, Nat.max_eq_left hge] using hleft.stop

theorem InText.stop_le {span : Span} (hspan : span.InText chars) :
    span.stop ≤ utf8Length chars :=
  hspan.stop.le_length

end Span

end ChainScript
