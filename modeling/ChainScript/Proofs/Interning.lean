import ChainScript.Interner
import Mathlib.Data.List.Dedup
import Mathlib.Data.List.Perm.Subperm
import Mathlib.Data.Option.Basic

/-
Numbers stand for texts, one for one and for good.

The map of a table and its array are inverse to each other, and a table holds
the texts that it was given and no others.  Both are kept when a text is
interned, known or new, and the texts that were there keep their numbers.
-/

namespace ChainScript

namespace Interner

/-- The table was given some texts: it holds these, and its map and its array
say the same of them. -/
structure Records (interner : Interner) (given : List String) : Prop where
  find?_iff : ∀ text number,
    interner.find? text = some number ↔ interner.texts[number]? = some text
  mem_iff : ∀ text, text ∈ interner.texts.toList ↔ text ∈ given

/-- The texts of the older table have the same numbers in the newer one. -/
def Extends (newer older : Interner) : Prop :=
  older.texts.toList <+: newer.texts.toList

theorem Extends.refl (interner : Interner) : interner.Extends interner :=
  List.prefix_refl _

theorem Extends.trans {older middle newer : Interner}
    (hnewer : newer.Extends middle) (holder : middle.Extends older) :
    newer.Extends older :=
  List.IsPrefix.trans holder hnewer

theorem Extends.getElem? {older newer : Interner}
    (hextends : newer.Extends older) {number : Nat} {text : String}
    (hnumber : older.texts[number]? = some text) :
    newer.texts[number]? = some text := by
  obtain ⟨more, hmore⟩ := hextends
  rw [← Array.getElem?_toList] at hnumber ⊢
  rw [← hmore, List.getElem?_append_left
    (List.getElem?_eq_some_iff.mp hnumber).1]
  exact hnumber

theorem records_empty : Records {} [] where
  find?_iff := by simp [find?]
  mem_iff := by simp

namespace Records

variable {interner : Interner} {given : List String}
  (hrecords : interner.Records given)

include hrecords

theorem find?_eq_none_iff {text : String} :
    interner.find? text = none ↔ text ∉ given := by
  rw [← hrecords.mem_iff, List.mem_iff_getElem?, Option.eq_none_iff_forall_ne_some]
  simp only [ne_eq, hrecords.find?_iff, Array.getElem?_toList, not_exists]

/-- No text has two numbers. -/
theorem nodup : interner.texts.toList.Nodup := by
  rw [List.nodup_iff_injective_getElem]
  rintro ⟨left, hleft⟩ ⟨right, hright⟩ (heq : _ = _)
  have hfind : ∀ {number : Nat} (hlt : number < interner.texts.toList.length),
      interner.find? interner.texts.toList[number] = some number := by
    intro number hlt
    rw [hrecords.find?_iff, ← Array.getElem?_toList,
      List.getElem?_eq_getElem hlt]
  have hnumbers : some left = some right :=
    (hfind hleft).symm.trans ((congrArg _ heq).trans (hfind hright))
  exact Fin.ext (Option.some.inj hnumbers)

theorem size_eq : interner.size = given.dedup.length := by
  have hperm : interner.texts.toList.Perm given.dedup :=
    (List.perm_ext_iff_of_nodup hrecords.nodup given.nodup_dedup).mpr
      fun text => by rw [hrecords.mem_iff, List.mem_dedup]
  simpa [size] using hperm.length_eq

/-- A known text changes nothing. -/
theorem intern_of_mem {text : String} (hmem : text ∈ given) :
    ∃ number, interner.intern text = .ok (number, interner) ∧
      interner.texts[number]? = some text := by
  obtain ⟨number, hnumber⟩ := Option.ne_none_iff_exists'.mp
    (mt hrecords.find?_eq_none_iff.mp (not_not_intro hmem))
  exact ⟨number, intern_of_known hnumber, (hrecords.find?_iff _ _).mp hnumber⟩

/-- A new text gets the next number. -/
theorem push {text : String} (hnew : text ∉ given) :
    Records ⟨(text, interner.texts.size) :: interner.numbers,
      interner.texts.push text⟩ (given ++ [text]) where
  find?_iff := by
    intro other number
    rw [Array.getElem?_push]
    by_cases hother : other = text
    · subst hother
      have hold : ¬ interner.texts[number]? = some other := by
        rw [← hrecords.find?_iff, hrecords.find?_eq_none_iff.mpr hnew]
        nofun
      simp only [find?, List.lookup_cons_self, Option.some.injEq]
      by_cases hlast : number = interner.texts.size
      · simp [hlast]
      · simp [hlast, Ne.symm hlast, hold]
    · have hfound : find? ⟨(text, interner.texts.size) :: interner.numbers,
          interner.texts.push text⟩ other = interner.find? other := by
        simp [find?, List.lookup_cons, beq_eq_false_iff_ne.mpr hother]
      rw [hfound, hrecords.find?_iff]
      by_cases hlast : number = interner.texts.size
      · simp [hlast, Ne.symm hother]
      · simp [hlast]
  mem_iff := by
    intro other
    simp [hrecords.mem_iff]

/-- Whether the text is known or new, interning it answers with its number as
long as there are numbers for all texts. -/
theorem intern (text : String)
    (hroom : (given ++ [text]).dedup.length ≤ capacity) :
    ∃ number after, interner.intern text = .ok (number, after) ∧
      after.Records (given ++ [text]) ∧ after.Extends interner ∧
      after.texts[number]? = some text := by
  by_cases hmem : text ∈ given
  · obtain ⟨number, hintern, hnumber⟩ := hrecords.intern_of_mem hmem
    refine ⟨number, interner, hintern, ⟨hrecords.find?_iff, ?_⟩, .refl _,
      hnumber⟩
    intro other
    rw [hrecords.mem_iff, List.mem_append, List.mem_singleton]
    constructor
    · exact .inl
    · rintro (hgiven | rfl)
      · exact hgiven
      · exact hmem
  · have hafter := hrecords.push hmem
    have hsize : interner.texts.size < capacity := by
      have hnext := hafter.size_eq
      simp only [size, Array.size_push] at hnext
      omega
    refine ⟨_, _, intern_of_new (hrecords.find?_eq_none_iff.mpr hmem) hsize,
      hafter, ?_, ?_⟩
    · exact ⟨[text], by simp⟩
    · simp

theorem addText (text : String)
    (hroom : (given ++ [text]).dedup.length ≤ capacity) :
    (interner.addText text).Records (given ++ [text]) := by
  obtain ⟨number, after, hintern, hafter, -⟩ := hrecords.intern text hroom
  rw [Interner.addText, hintern]
  exact hafter

end Records

/-- There are numbers for fewer texts if there are for more. -/
theorem length_dedup_le {fewer more : List String}
    (hsubset : fewer ⊆ more) : fewer.dedup.length ≤ more.dedup.length := by
  apply List.Subperm.length_le
  apply List.subperm_of_subset fewer.nodup_dedup
  intro text hmem
  exact List.mem_dedup.mpr (hsubset (List.mem_dedup.mp hmem))

theorem Records.foldl_addText {interner : Interner} {given : List String}
    (hrecords : interner.Records given) (texts : List String)
    (hroom : (given ++ texts).dedup.length ≤ capacity) :
    (texts.foldl Interner.addText interner).Records (given ++ texts) := by
  induction texts generalizing interner given with
  | nil => simpa using hrecords
  | cons text rest ih =>
      rw [List.append_cons] at hroom ⊢
      have hfirst : (given ++ [text]).dedup.length ≤ capacity :=
        Nat.le_trans (length_dedup_le (List.subset_append_left _ _)) hroom
      exact ih (hrecords.addText text hfirst) hroom

theorem records_standard : standard.Records standardTexts :=
  records_empty.foldl_addText standardTexts (by decide +kernel)

/-- Interning some texts in order answers with a number for each, as long as
there are numbers for all of them. -/
theorem Records.internAll {interner : Interner} {given : List String}
    (hrecords : interner.Records given) (texts : List String)
    (hroom : (given ++ texts).dedup.length ≤ capacity) :
    ∃ numbers after, interner.internAll texts = .ok (numbers, after) ∧
      after.Records (given ++ texts) ∧ after.Extends interner ∧
      numbers.map (after.texts[·]?) = texts.map some := by
  induction texts generalizing interner given with
  | nil =>
      exact ⟨[], interner, rfl, by simpa using hrecords, .refl _, rfl⟩
  | cons text rest ih =>
      rw [List.append_cons] at hroom ⊢
      have hfirst : (given ++ [text]).dedup.length ≤ capacity :=
        Nat.le_trans (length_dedup_le (List.subset_append_left _ _)) hroom
      obtain ⟨number, middle, hintern, hmiddle, holder, hnumber⟩ :=
        hrecords.intern text hfirst
      obtain ⟨numbers, after, hmore, hafter, hnewer, hnumbers⟩ :=
        ih hmiddle hroom
      refine ⟨number :: numbers, after, internAll_of_intern hintern hmore,
        hafter, hnewer.trans holder, ?_⟩
      rw [List.map_cons, List.map_cons, hnumbers, hnewer.getElem? hnumber]

/-- The numbers of texts are as different as the texts. -/
theorem getElem?_eq_iff_of_map {interner : Interner} {given : List String}
    (hrecords : interner.Records given) {numbers : List Nat}
    {texts : List String}
    (hnumbers : numbers.map (interner.texts[·]?) = texts.map some)
    (i j : Nat) : numbers[i]? = numbers[j]? ↔ texts[i]? = texts[j]? := by
  have hfind : texts.map interner.find? = numbers.map some := by
    have hlength := congrArg List.length hnumbers
    apply List.ext_getElem
    · simpa using hlength.symm
    · intro k hk hk'
      have hrow := congrArg (·[k]?) hnumbers
      simp only [List.length_map] at hk hk'
      simp only [List.getElem?_map, List.getElem?_eq_getElem hk,
        List.getElem?_eq_getElem hk', Option.map_some, Option.some.injEq] at hrow
      simpa using (hrecords.find?_iff _ _).mpr hrow
  constructor
  · intro hsame
    have htexts := congrArg (Option.map (interner.texts[·]?)) hsame
    rw [← List.getElem?_map, ← List.getElem?_map, hnumbers, List.getElem?_map,
      List.getElem?_map] at htexts
    exact Option.map_injective (Option.some_injective _) htexts
  · intro hsame
    have hfound := congrArg (Option.map interner.find?) hsame
    rw [← List.getElem?_map, ← List.getElem?_map, hfind, List.getElem?_map,
      List.getElem?_map] at hfound
    exact Option.map_injective (Option.some_injective _) hfound

theorem map_lookup_eq {interner : Interner} {numbers : List Nat}
    {texts : List String}
    (hnumbers : numbers.map (interner.texts[·]?) = texts.map some) :
    numbers.map interner.lookup = texts := by
  have hlookup := congrArg (List.map (Option.getD · "")) hnumbers
  rwa [List.map_map, List.map_map, List.map_id''] at hlookup
  exact fun _ => rfl

/-- Interning is a stable bijection.  As long as there are numbers for all
texts, every call answers; the number of a text stands for it at once and after
all further calls, two calls are given the same number exactly for the same
text, and a number that was handed out never changes its text.  The empty text
is number zero, there are as many numbers as distinct texts, and each of them
is the number of its text. -/
theorem numbers_stand_for_texts (before later : List String)
    (hroom : (standardTexts ++ before ++ later).dedup.length ≤ capacity) :
    ∃ (first : List Nat) (middle : Interner) (second : List Nat)
        (last : Interner),
      standard.internAll before = .ok (first, middle) ∧
      middle.internAll later = .ok (second, last) ∧
      first.map middle.lookup = before ∧
      (first ++ second).map last.lookup = before ++ later ∧
      (∀ i j : Nat, (first ++ second)[i]? = (first ++ second)[j]? ↔
        (before ++ later)[i]? = (before ++ later)[j]?) ∧
      (∀ number < middle.size, last.lookup number = middle.lookup number) ∧
      (∀ number < last.size,
        last.intern (last.lookup number) = .ok (number, last)) ∧
      last.intern "" = .ok (0, last) ∧
      middle.size = (standardTexts ++ before).dedup.length ∧
      last.size = (standardTexts ++ before ++ later).dedup.length := by
  have hmiddleRoom : (standardTexts ++ before).dedup.length ≤ capacity :=
    Nat.le_trans (length_dedup_le (List.subset_append_left _ _)) hroom
  obtain ⟨first, middle, hbefore, hmiddle, hstandard, hfirst⟩ :=
    records_standard.internAll before hmiddleRoom
  obtain ⟨second, last, hlater, hlast, hextends, hsecond⟩ :=
    hmiddle.internAll later hroom
  have hkept : first.map (last.texts[·]?) = before.map some := by
    rw [← hfirst, List.map_inj_left]
    intro number hmem
    have hnumber : middle.texts[number]? ∈ before.map some :=
      hfirst ▸ List.mem_map_of_mem hmem
    obtain ⟨text, -, htext⟩ := List.mem_map.mp hnumber
    rw [← htext, hextends.getElem? htext.symm]
  have hall : (first ++ second).map (last.texts[·]?) =
      (before ++ later).map some := by
    rw [List.map_append, List.map_append, hkept, hsecond]
  have hrow : ∀ {interner : Interner} {number : Nat}, number < interner.size →
      interner.texts[number]? = some (interner.lookup number) := by
    intro interner number hlt
    have hlt : number < interner.texts.size := hlt
    simp [lookup, hlt]
  refine ⟨first, middle, second, last, hbefore, hlater, map_lookup_eq hfirst,
    map_lookup_eq hall, getElem?_eq_iff_of_map hlast hall, ?_, ?_, ?_,
    hmiddle.size_eq, hlast.size_eq⟩
  · intro number hlt
    exact lookup_of_getElem? (hextends.getElem? (hrow hlt))
  · intro number hlt
    exact intern_of_known ((hlast.find?_iff _ _).mpr (hrow hlt))
  · have hempty : standard.texts[0]? = some "" := by decide +kernel
    exact intern_of_known ((hlast.find?_iff _ _).mpr
      ((hextends.trans hstandard).getElem? hempty))

/-- `point` is new, and so is `origin`; the others are known. -/
theorem numbers_stand_for_texts_point :
    (standardTexts ++ ["point", "point"] ++ ["origin", "", "inherit"]).dedup.length ≤
        capacity ∧
      ∃ first middle second last,
        standard.internAll ["point", "point"] = .ok (first, middle) ∧
        middle.internAll ["origin", "", "inherit"] = .ok (second, last) ∧
        (first ++ second).map last.lookup =
          ["point", "point", "origin", "", "inherit"] ∧
        last.size = standard.size + 2 := by
  have hroom : (standardTexts ++ ["point", "point"] ++
      ["origin", "", "inherit"]).dedup.length ≤ capacity := by decide +kernel
  refine ⟨hroom, ?_⟩
  obtain ⟨first, middle, second, last, hbefore, hlater, -, hlookup, -, -, -, -,
    -, hsize⟩ := numbers_stand_for_texts ["point", "point"]
      ["origin", "", "inherit"] hroom
  refine ⟨first, middle, second, last, hbefore, hlater, hlookup, ?_⟩
  rw [hsize]
  decide +kernel

end Interner

end ChainScript
