import ChainScript.Lexer
import Mathlib.Computability.Language

/-
The shapes of lexemes as regular languages, and the longest match of them.

The lexer finds the piece of a text that it takes next by looking at its first
characters.  That piece is the longest one at the start of the text that has
one of the shapes or is dropped, and no piece has two shapes.
-/

namespace ChainScript

open scoped Computability

section Languages

/-- The texts of one character of a kind. -/
def oneOf (accepts : Char → Bool) : Language Char :=
  {text | ∃ c, accepts c = true ∧ text = [c]}

theorem mem_oneOf {accepts : Char → Bool} {text : List Char} :
    text ∈ oneOf accepts ↔ ∃ c, accepts c = true ∧ text = [c] :=
  Iff.rfl

theorem singleton_mem_oneOf {accepts : Char → Bool} {c : Char}
    (hc : accepts c = true) : [c] ∈ oneOf accepts :=
  ⟨c, hc, rfl⟩

theorem append_mem_kstar {language : Language Char} {piece text : List Char}
    (hpiece : piece ∈ language) (htext : text ∈ language∗) :
    piece ++ text ∈ language∗ := by
  rw [← Language.one_add_self_mul_kstar_eq_kstar]
  exact .inr (Language.append_mem_mul hpiece htext)

/-- Induction over the pieces of a repetition. -/
theorem kstar_induction {language : Language Char}
    {motive : List Char → Prop} (nil : motive [])
    (append : ∀ piece text, piece ∈ language → text ∈ language∗ →
      motive text → motive (piece ++ text))
    {text : List Char} (htext : text ∈ language∗) : motive text := by
  obtain ⟨pieces, rfl, hpieces⟩ := Language.mem_kstar.mp htext
  induction pieces with
  | nil => exact nil
  | cons piece pieces ih =>
      have hothers : ∀ other ∈ pieces, other ∈ language :=
        fun other hother => hpieces other (List.mem_cons_of_mem _ hother)
      exact append piece pieces.flatten (hpieces piece List.mem_cons_self)
        (Language.join_mem_kstar hothers)
        (ih hothers (Language.join_mem_kstar hothers))

theorem mem_kstar_oneOf {accepts : Char → Bool} {text : List Char} :
    text ∈ (oneOf accepts)∗ ↔ ∀ c ∈ text, accepts c = true := by
  constructor
  · intro htext
    refine kstar_induction (motive := fun text => ∀ c ∈ text, accepts c = true)
      (by simp) ?_ htext
    rintro _ text ⟨c, hc, rfl⟩ _ ih
    simpa [hc] using ih
  · intro htext
    induction text with
    | nil => exact Language.nil_mem_kstar _
    | cons c rest ih =>
        have hc := htext c List.mem_cons_self
        exact append_mem_kstar (singleton_mem_oneOf hc)
          (ih fun other hother => htext other (List.mem_cons_of_mem c hother))

/-- A character of one kind, and any number of another. -/
theorem mem_oneOf_mul_kstar {first others : Char → Bool} {text : List Char} :
    text ∈ oneOf first * (oneOf others)∗ ↔
      ∃ c rest, text = c :: rest ∧ first c = true ∧
        ∀ other ∈ rest, others other = true := by
  simp only [Language.mem_mul, mem_oneOf, mem_kstar_oneOf]
  constructor
  · rintro ⟨_, ⟨c, hc, rfl⟩, rest, hrest, rfl⟩
    exact ⟨c, rest, rfl, hc, hrest⟩
  · rintro ⟨c, rest, rfl, hc, hrest⟩
    exact ⟨[c], ⟨c, hc, rfl⟩, rest, hrest, rfl⟩

/-- None of the texts goes on to another line. -/
def WithoutFeed (language : Language Char) : Prop :=
  ∀ text ∈ language, '\n' ∉ text

namespace WithoutFeed

variable {left right : Language Char}

theorem one : WithoutFeed 1 := by
  rintro _ ⟨⟩
  simp

theorem oneOf {accepts : Char → Bool} (hfeed : accepts '\n' = false) :
    WithoutFeed (oneOf accepts) := by
  rintro _ ⟨c, hc, rfl⟩ hmem
  rw [List.mem_singleton.mp hmem, hc] at hfeed
  cases hfeed

theorem add (hleft : WithoutFeed left) (hright : WithoutFeed right) :
    WithoutFeed (left + right) := by
  rintro text (htext | htext)
  · exact hleft text htext
  · exact hright text htext

theorem mul (hleft : WithoutFeed left) (hright : WithoutFeed right) :
    WithoutFeed (left * right) := by
  rintro _ ⟨first, hfirst, second, hsecond, rfl⟩ hmem
  rcases List.mem_append.mp hmem with hmem | hmem
  · exact hleft first hfirst hmem
  · exact hright second hsecond hmem

theorem kstar (hleft : WithoutFeed left) : WithoutFeed left∗ := by
  intro text htext
  refine kstar_induction (motive := ('\n' ∉ ·)) (by simp) ?_ htext
  intro piece text hpiece _ ih hmem
  rcases List.mem_append.mp hmem with hmem | hmem
  · exact hleft piece hpiece hmem
  · exact ih hmem

end WithoutFeed

end Languages

section Patterns

/-- A digit, then digits and separators. -/
def digitRun : Language Char :=
  oneOf Char.isDigit * (oneOf isDigitOrSeparator)∗

/-- The mark of an exponent, a sign if there is one, and digits. -/
def exponentPattern : Language Char :=
  oneOf (fun c => c = 'e' || c = 'E') *
    ((1 + oneOf fun c => c = '+' || c = '-') *
      (oneOf Char.isDigit * (oneOf Char.isDigit)∗))

/-- What may stand between quotes: a plain character, or a backslash and any
character of the same line. -/
def quotedPart : Language Char :=
  oneOf (fun c => c ≠ '"' && c ≠ '\\' && c ≠ '\n' && c ≠ '\r') +
    oneOf (· = '\\') * oneOf (· ≠ '\n')

/-- The texts of a shape. -/
def Shape.pattern : Shape → Language Char
  | .newline => {['\n']}
  | .mark symbol => {symbol.spelling.toList}
  | .word => oneOf isWordStart * (oneOf isWordPart)∗
  | .integer => digitRun
  | .decimal =>
      digitRun * (oneOf (· = '.') * (digitRun * (1 + exponentPattern)))
  | .text => oneOf (· = '"') * (quotedPart∗ * oneOf (· = '"'))
  | .openText => oneOf (· = '"') * quotedPart∗

theorem mem_decimal_pattern {text : List Char} :
    text ∈ Shape.decimal.pattern ↔
      ∃ whole ∈ digitRun, ∃ fraction ∈ digitRun,
        ∃ exponent ∈ 1 + exponentPattern,
          text = whole ++ '.' :: (fraction ++ exponent) := by
  constructor
  · rintro ⟨whole, hwhole, _, ⟨_, ⟨point, hpoint, rfl⟩, _,
      ⟨fraction, hfraction, exponent, hexponent, rfl⟩, rfl⟩, rfl⟩
    obtain rfl : point = '.' := by simpa using hpoint
    exact ⟨whole, hwhole, fraction, hfraction, exponent, hexponent, rfl⟩
  · rintro ⟨whole, hwhole, fraction, hfraction, exponent, hexponent, rfl⟩
    have hpoint : ['.'] ∈ oneOf (· = '.') := singleton_mem_oneOf (by rfl)
    exact Language.append_mem_mul hwhole (Language.append_mem_mul hpoint
      (Language.append_mem_mul hfraction hexponent))

theorem mem_text_pattern {text : List Char} :
    text ∈ Shape.text.pattern ↔
      ∃ content ∈ quotedPart∗, text = '"' :: (content ++ ['"']) := by
  have hquote : ['"'] ∈ oneOf (· = '"') := singleton_mem_oneOf (by rfl)
  constructor
  · rintro ⟨_, ⟨opening, hopening, rfl⟩, _,
      ⟨content, hcontent, _, ⟨closing, hclosing, rfl⟩, rfl⟩, rfl⟩
    obtain rfl : opening = '"' := by simpa using hopening
    obtain rfl : closing = '"' := by simpa using hclosing
    exact ⟨content, hcontent, rfl⟩
  · rintro ⟨content, hcontent, rfl⟩
    exact Language.append_mem_mul hquote
      (Language.append_mem_mul hcontent hquote)

theorem mem_openText_pattern {text : List Char} :
    text ∈ Shape.openText.pattern ↔
      ∃ content ∈ quotedPart∗, text = '"' :: content := by
  constructor
  · rintro ⟨_, ⟨opening, hopening, rfl⟩, content, hcontent, rfl⟩
    obtain rfl : opening = '"' := by simpa using hopening
    exact ⟨content, hcontent, rfl⟩
  · rintro ⟨content, hcontent, rfl⟩
    have hquote : ['"'] ∈ oneOf (· = '"') := singleton_mem_oneOf (by rfl)
    exact Language.append_mem_mul hquote hcontent

/-- The texts that are dropped: blanks, or a comment. -/
def dropped : Language Char :=
  oneOf isBlank * (oneOf isBlank)∗ + oneOf (· = '#') * (oneOf (· ≠ '\n'))∗

/-- The text is dropped or has a shape. -/
def Matches (text : List Char) : Prop :=
  text ∈ dropped ∨ ∃ shape : Shape, text ∈ shape.pattern

/-- The piece is what the text starts with, and nothing longer at the start of
the text matches. -/
structure Longest (piece chars : List Char) : Prop where
  starts : piece <+: chars
  longest : ∀ other, other <+: chars → Matches other →
    other.length ≤ piece.length

theorem Longest.eq {first second chars : List Char}
    (hfirst : Longest first chars) (hfirstMatch : Matches first)
    (hsecond : Longest second chars) (hsecondMatch : Matches second) :
    first = second := by
  have hle := hsecond.longest first hfirst.starts hfirstMatch
  have hge := hfirst.longest second hsecond.starts hsecondMatch
  exact List.IsPrefix.eq_of_length
    (List.prefix_of_prefix_length_le hfirst.starts hsecond.starts hle)
    (Nat.le_antisymm hle hge)

/-- The longest match does not depend on how far the text goes on behind it. -/
theorem Longest.of_prefix {piece shorter rest : List Char}
    (hlongest : Longest piece (piece ++ rest)) (hshorter : shorter <+: rest) :
    Longest piece (piece ++ shorter) :=
  ⟨List.prefix_append _ _, fun other hother hmatches =>
    hlongest.longest other
      (hother.trans ((List.prefix_append_right_inj piece).mpr hshorter))
      hmatches⟩

theorem withoutFeed_digitRun : WithoutFeed digitRun :=
  .mul (.oneOf rfl) (.kstar (.oneOf rfl))

theorem withoutFeed_quotedPart : WithoutFeed quotedPart :=
  .add (.oneOf (by decide)) (.mul (.oneOf rfl) (.oneOf (by decide)))

theorem withoutFeed_dropped : WithoutFeed dropped :=
  .add (.mul (.oneOf rfl) (.kstar (.oneOf rfl)))
    (.mul (.oneOf rfl) (.kstar (.oneOf (by decide))))

/-- Only the line feed itself goes on to another line. -/
theorem Shape.withoutFeed_pattern {shape : Shape} (hshape : shape ≠ .newline) :
    WithoutFeed shape.pattern := by
  cases shape with
  | newline => exact absurd rfl hshape
  | mark mark =>
      rintro _ ⟨⟩
      cases mark <;> decide
  | word => exact .mul (.oneOf rfl) (.kstar (.oneOf rfl))
  | integer => exact withoutFeed_digitRun
  | decimal =>
      have hexponent : WithoutFeed exponentPattern :=
        .mul (.oneOf rfl) (.mul (.add .one (.oneOf rfl))
          (.mul (.oneOf rfl) (.kstar (.oneOf rfl))))
      exact .mul withoutFeed_digitRun (.mul (.oneOf rfl)
        (.mul withoutFeed_digitRun (.add .one hexponent)))
  | text =>
      exact .mul (.oneOf rfl) (.mul (.kstar withoutFeed_quotedPart)
        (.oneOf rfl))
  | openText => exact .mul (.oneOf rfl) (.kstar withoutFeed_quotedPart)

/-- A match that has a line feed is one. -/
theorem Matches.eq_feed {text : List Char} (hmatches : Matches text)
    (hfeed : '\n' ∈ text) : text = ['\n'] := by
  rcases hmatches with hdropped | ⟨shape, hshape⟩
  · exact absurd hfeed (withoutFeed_dropped text hdropped)
  · by_cases hnewline : shape = .newline
    · subst hnewline
      exact hshape
    · exact absurd hfeed (Shape.withoutFeed_pattern hnewline text hshape)

end Patterns

end ChainScript
