import Mathlib.Data.List.Induction
import ChainScript.Options

/-
The order of the arguments of the command line.

An argument says by itself whether it is an option, and which one.  All others
name the script, of which there may be one.  So what some arguments add up to
does not depend on their order, except that a setting which is given several
times has its last value.
-/

namespace ChainScript

/-- The argument is an option: it begins with a hyphen and goes on. -/
def IsOption (argument : String) : Prop :=
  argument.startsWith "-" = true ∧ 1 < argument.length

instance : DecidablePred IsOption :=
  fun _ => inferInstanceAs (Decidable (_ ∧ _))

/-- The argument asks about the program, and not to run a script. -/
def AsksAboutProgram (argument : String) : Prop :=
  argument ∈ ["-h", "--help", "-V", "--version"]

instance : DecidablePred AsksAboutProgram :=
  fun _ => inferInstanceAs (Decidable (_ ∈ _))

/-- A positive number of 64 bits in decimal digits, which may have a plus sign
in front of them. -/
def SpellsLimit (value : String) (limit : Nat) : Prop :=
  ∃ digits : List Char, digits ≠ [] ∧ (∀ c ∈ digits, c.isDigit = true) ∧
    (value.toList = digits ∨ value.toList = '+' :: digits) ∧
    digitsValue digits = limit ∧ 0 < limit ∧ limit < UInt64.size

/-- What an option changes about a run. -/
inductive RunSetting where
  | quiet
  | limit (limit : Nat)
  | color (mode : ColorMode)
deriving Repr, DecidableEq

/-- The options with valid values. -/
inductive Spells : RunSetting → String → Prop where
  | quiet : Spells .quiet "-q"
  | quietInFull : Spells .quiet "--quiet"
  | limit {value : String} {limit : Nat} (hvalue : SpellsLimit value limit) :
      Spells (.limit limit) ("--max-depth=" ++ value)
  | color (mode : ColorMode) :
      Spells (.color mode) ("--color=" ++ mode.text)

/-- The value is the last one that some argument sets, and the given one if
none does. -/
def LastSet {α : Type} (sets : String → α → Prop) (arguments : List String)
    (default value : α) : Prop :=
  (∃ earlier argument later, arguments = earlier ++ argument :: later ∧
    sets argument value ∧ ∀ other ∈ later, ∀ others, ¬ sets other others) ∨
  ((∀ argument ∈ arguments, ∀ others, ¬ sets argument others) ∧
    value = default)

/-- The options are what the arguments ask for. -/
structure RunOptions.AskedFor (options : RunOptions)
    (arguments : List String) : Prop where
  path : ∀ argument ∈ arguments, ¬ IsOption argument →
    options.path = if argument = "-" then none else some argument
  noPath : (∀ argument ∈ arguments, IsOption argument) → options.path = none
  limit : LastSet (fun argument limit => Spells (.limit limit) argument)
    arguments CallStack.defaultLimit options.limit
  color : LastSet (fun argument mode => Spells (.color mode) argument)
    arguments .auto options.color
  quiet : options.quiet = true ↔
    ∃ argument ∈ arguments, Spells .quiet argument

section Texts

theorem startsWith_iff_exists_append {text start : String} :
    text.startsWith start = true ↔ ∃ rest, text = start ++ rest := by
  rw [String.startsWith_string_iff]
  constructor
  · rintro ⟨rest, hrest⟩
    refine ⟨String.ofList rest, String.toList_injective ?_⟩
    simp [← hrest]
  · rintro ⟨rest, rfl⟩
    simp

theorem textAfter?_eq_some_iff {start text rest : String} :
    textAfter? start text = some rest ↔ text = start ++ rest := by
  constructor
  · intro hafter
    unfold textAfter? at hafter
    split at hafter
    · next hstart =>
      obtain ⟨others, hothers⟩ := List.isPrefixOf_iff_prefix.mp hstart
      cases hafter
      apply String.toList_injective
      simp [← hothers]
    · cases hafter
  · rintro rfl
    exact textAfter?_append start rest

theorem textAfter?_eq_none_iff {start text : String} :
    textAfter? start text = none ↔ text.startsWith start = false := by
  rw [Option.eq_none_iff_forall_ne_some, ← Bool.not_eq_true,
    startsWith_iff_exists_append, not_exists]
  exact forall_congr' fun rest => not_congr textAfter?_eq_some_iff

/-- What a text of more than a hyphen begins is an option. -/
theorem isOption_append {start rest : String}
    (hstart : start.startsWith "-" = true) (hlength : 1 < start.length) :
    IsOption (start ++ rest) := by
  obtain ⟨others, rfl⟩ := startsWith_iff_exists_append.mp hstart
  refine ⟨startsWith_iff_exists_append.mpr ⟨others ++ rest, ?_⟩, ?_⟩
  · rw [String.append_assoc]
  · rw [String.length_append]
    omega

theorem decimalValue?_eq_some_iff {text : List Char} {value : Nat} :
    decimalValue? text = some value ↔ text ≠ [] ∧
      (∀ c ∈ text, c.isDigit = true) ∧ digitsValue text = value := by
  unfold decimalValue?
  split
  · simp
  · next hne =>
    rw [← List.all_eq_true]
    split
    · next hdigits =>
      simpa [hdigits] using fun _ => hne
    · next hdigits => simp [hdigits]

theorem readLimit?_eq_some_iff {value : String} {limit : Nat} :
    readLimit? value = some limit ↔ SpellsLimit value limit := by
  unfold readLimit? SpellsLimit
  simp only [Option.bind_eq_bind, Option.bind_eq_some_iff,
    decimalValue?_eq_some_iff]
  constructor
  · rintro ⟨found, ⟨hne, hdigits, hvalue⟩, hlimit⟩
    split at hlimit
    · next hrange =>
      cases hlimit
      refine ⟨_, hne, hdigits, ?_, hvalue, hrange⟩
      split
      · next digits hplus => exact .inr hplus
      · exact .inl rfl
    · cases hlimit
  · rintro ⟨digits, hne, hdigits, htext, hvalue, hrange⟩
    refine ⟨limit, ?_, if_pos hrange⟩
    split
    · next others hplus =>
      rcases htext with htext | htext
      · -- A plus sign is no digit.
        have hsign := hdigits '+' (by simp [← htext, hplus])
        exact absurd hsign (by decide)
      · cases hplus.symm.trans htext
        exact ⟨hne, hdigits, hvalue⟩
    · next hplus =>
      rcases htext with htext | htext
      · rw [htext]
        exact ⟨hne, hdigits, hvalue⟩
      · exact absurd htext (hplus digits)

theorem ofText?_eq_some_iff {word : String} {mode : ColorMode} :
    ColorMode.ofText? word = some mode ↔ word = mode.text := by
  constructor
  · intro hfound
    have hsame := List.find?_some hfound
    exact (beq_iff_eq.mp hsame).symm
  · rintro rfl
    exact mode.ofText?_text

end Texts

/-- What an argument of each form looks like. -/
def Argument.Describes : Argument → String → Prop
  | .help, text | .version, text => AsksAboutProgram text
  | .quiet, text => text = "-q" ∨ text = "--quiet"
  | .limit value, text => text = "--max-depth=" ++ value
  | .color value, text => text = "--color=" ++ value
  | .unknown, text => IsOption text ∧ ∀ setting, ¬ Spells setting text
  | .script path, text =>
      ¬ IsOption text ∧ path = if text = "-" then none else some text

theorem Argument.describes_ofText (text : String) :
    (Argument.ofText text).Describes text := by
  unfold Argument.ofText
  split
  · simp [Describes, AsksAboutProgram]
  · simp [Describes, AsksAboutProgram]
  · simp [Describes, AsksAboutProgram]
  · simp [Describes, AsksAboutProgram]
  · exact .inl rfl
  · exact .inr rfl
  · exact ⟨by decide +kernel, rfl⟩
  · next hquiet hlong hhyphen =>
    split
    · next hlimit => exact textAfter?_eq_some_iff.mp hlimit
    · next hcolor => exact textAfter?_eq_some_iff.mp hcolor
    · next hlimit hcolor =>
      rw [textAfter?_eq_none_iff, ← Bool.not_eq_true,
        startsWith_iff_exists_append] at hlimit hcolor
      split
      · next hstart =>
        refine ⟨⟨hstart, ?_⟩, ?_⟩
        · obtain ⟨rest, rfl⟩ := startsWith_iff_exists_append.mp hstart
          have hrest : rest.length ≠ 0 := by
            intro hempty
            rw [String.length_eq_zero_iff] at hempty
            exact hhyphen (by rw [hempty]; rfl)
          rw [String.length_append, show "-".length = 1 by decide]
          omega
        · rintro setting hspells
          cases hspells with
          | quiet => exact hquiet rfl
          | quietInFull => exact hlong rfl
          | limit hvalue => exact hlimit ⟨_, rfl⟩
          | color mode => exact hcolor ⟨_, rfl⟩
      · next hstart =>
        refine ⟨fun hoption => hstart hoption.1, ?_⟩
        rw [if_neg hhyphen]

theorem Argument.ofText_limit (value : String) :
    Argument.ofText ("--max-depth=" ++ value) = .limit value := by
  unfold Argument.ofText
  split
  case h_8 => simp only [textAfter?_append]
  -- No argument of a fixed form begins like this.
  all_goals
    next hother =>
    have hstart := congrArg (fun text => text.toList.take 3) hother
    simp at hstart

theorem Argument.ofText_color (value : String) :
    Argument.ofText ("--color=" ++ value) = .color value := by
  have hlimit : textAfter? "--max-depth=" ("--color=" ++ value) = none := by
    simp [textAfter?]
  unfold Argument.ofText
  split
  case h_8 => simp only [hlimit, textAfter?_append]
  all_goals
    next hother =>
    have hstart := congrArg (fun text => text.toList.take 3) hother
    simp at hstart

section Fields

variable {α : Type} {sets : String → α → Prop} {read? : String → Option α}

/-- The value set last is the last of the values that are set. -/
theorem lastSet_getLast?
    (hread : ∀ argument value,
      read? argument = some value ↔ sets argument value)
    (arguments : List String) (default : α) :
    LastSet sets arguments default
      ((arguments.filterMap read?).getLast?.getD default) := by
  induction arguments using List.reverseRecOn with
  | nil => exact .inr ⟨by simp, rfl⟩
  | append_singleton earlier argument ih =>
      cases hfound : read? argument with
      | some value =>
          refine .inl ⟨earlier, argument, [], rfl, ?_, by simp⟩
          simpa [hfound] using (hread argument value).mp hfound
      | none =>
          have hnone : ∀ value, ¬ sets argument value := by
            intro value hsets
            rw [(hread argument value).mpr hsets] at hfound
            cases hfound
          simp only [List.filterMap_append, List.filterMap_cons, hfound,
            List.filterMap_nil, List.append_nil]
          rcases ih with ⟨first, last, later, rfl, hlast, hlater⟩ |
            ⟨hearlier, hdefault⟩
          · refine .inl ⟨first, last, later ++ [argument], by simp, hlast, ?_⟩
            rw [List.forall_mem_append]
            exact ⟨hlater, by simpa using hnone⟩
          · refine .inr ⟨?_, hdefault⟩
            rw [List.forall_mem_append]
            exact ⟨hearlier, by simpa using hnone⟩

end Fields

/-- The limit that an argument sets. -/
def limitOf? (argument : String) : Option Nat :=
  match Argument.ofText argument with
  | .limit value => readLimit? value
  | _ => none

def colorOf? (argument : String) : Option ColorMode :=
  match Argument.ofText argument with
  | .color value => ColorMode.ofText? value
  | _ => none

def quietOf? (argument : String) : Option Bool :=
  match Argument.ofText argument with
  | .quiet => some true
  | _ => none

/-- The path of the script that an argument names, which standard input does not
have. -/
def pathOf? (argument : String) : Option (Option String) :=
  match Argument.ofText argument with
  | .script path => some path
  | _ => none

/-- The options after one more argument. -/
def RunOptions.after (options : RunOptions) (argument : String) :
    RunOptions where
  path := (pathOf? argument).getD options.path
  limit := (limitOf? argument).getD options.limit
  color := (colorOf? argument).getD options.color
  quiet := (quietOf? argument).getD options.quiet

section Runs

variable {argument : String}

theorem limitOf?_eq_some_iff {limit : Nat} :
    limitOf? argument = some limit ↔ Spells (.limit limit) argument := by
  constructor
  · intro hfound
    have hform := Argument.describes_ofText argument
    unfold limitOf? at hfound
    split at hfound
    · next value hargument =>
      rw [hargument] at hform
      obtain rfl := hform
      exact .limit (readLimit?_eq_some_iff.mp hfound)
    · cases hfound
  · intro hspells
    cases hspells with
    | limit hvalue =>
        unfold limitOf?
        rw [Argument.ofText_limit]
        exact readLimit?_eq_some_iff.mpr hvalue

theorem colorOf?_eq_some_iff {mode : ColorMode} :
    colorOf? argument = some mode ↔ Spells (.color mode) argument := by
  constructor
  · intro hfound
    have hform := Argument.describes_ofText argument
    unfold colorOf? at hfound
    split at hfound
    · next value hargument =>
      rw [hargument] at hform
      obtain rfl := hform
      obtain rfl := ofText?_eq_some_iff.mp hfound
      exact .color mode
    · cases hfound
  · intro hspells
    cases hspells with
    | color =>
        unfold colorOf?
        rw [Argument.ofText_color]
        exact mode.ofText?_text

theorem quietOf?_eq_some_iff {quiet : Bool} :
    quietOf? argument = some quiet ↔
      quiet = true ∧ Spells .quiet argument := by
  constructor
  · intro hfound
    have hform := Argument.describes_ofText argument
    unfold quietOf? at hfound
    split at hfound
    · next hargument =>
      rw [hargument] at hform
      cases hfound
      rcases hform with rfl | rfl
      · exact ⟨rfl, .quiet⟩
      · exact ⟨rfl, .quietInFull⟩
    · cases hfound
  · rintro ⟨rfl, hspells⟩
    cases hspells <;> rfl

theorem isOption_of_asks (hasks : AsksAboutProgram argument) :
    IsOption argument := by
  simp only [AsksAboutProgram, List.mem_cons, List.not_mem_nil, or_false]
    at hasks
  rcases hasks with rfl | rfl | rfl | rfl <;> decide +kernel

/-- All forms but one are those of options. -/
theorem Argument.isOption_of_describes {form : Argument}
    (hform : form.Describes argument)
    (hscript : ∀ path, form ≠ .script path) : IsOption argument := by
  cases form with
  | help => exact isOption_of_asks hform
  | version => exact isOption_of_asks hform
  | quiet => rcases hform with rfl | rfl <;> decide +kernel
  | limit value =>
      obtain rfl := hform
      exact isOption_append (by decide +kernel) (by decide)
  | color value =>
      obtain rfl := hform
      exact isOption_append (by decide +kernel) (by decide)
  | unknown => exact hform.1
  | script path => exact absurd rfl (hscript path)

theorem pathOf?_eq_some_iff {path : Option String} :
    pathOf? argument = some path ↔ ¬ IsOption argument ∧
      path = if argument = "-" then none else some argument := by
  have hform := Argument.describes_ofText argument
  unfold pathOf?
  split
  · next found hargument =>
    rw [hargument] at hform
    obtain ⟨hplain, rfl⟩ := hform
    rw [Option.some.injEq, eq_comm]
    exact ⟨fun hpath => ⟨hplain, hpath⟩, And.right⟩
  · next hscript =>
    have hoption := Argument.isOption_of_describes hform hscript
    exact ⟨nofun, fun hplain => absurd hoption hplain.1⟩

/-- The arguments that set something. -/
theorem exists_spells_iff : (∃ setting, Spells setting argument) ↔
    (limitOf? argument).isSome = true ∨ (colorOf? argument).isSome = true ∨
      (quietOf? argument).isSome = true := by
  simp only [Option.isSome_iff_exists, limitOf?_eq_some_iff,
    colorOf?_eq_some_iff, quietOf?_eq_some_iff]
  constructor
  · rintro ⟨setting, hspells⟩
    cases setting with
    | quiet => exact .inr (.inr ⟨true, rfl, hspells⟩)
    | limit limit => exact .inl ⟨limit, hspells⟩
    | color mode => exact .inr (.inl ⟨mode, hspells⟩)
  · rintro (⟨limit, hspells⟩ | ⟨mode, hspells⟩ | ⟨quiet, -, hspells⟩)
    · exact ⟨_, hspells⟩
    · exact ⟨_, hspells⟩
    · exact ⟨_, hspells⟩

variable {options : RunOptions} {named : Bool} {rest : List String}
  {command : Command}

/-- A known option with a valid value changes the options, and no other option
is accepted. -/
theorem readArguments_cons_option (hasks : ¬ AsksAboutProgram argument)
    (hoption : IsOption argument) :
    readArguments options named (argument :: rest) = .ok command ↔
      (∃ setting, Spells setting argument) ∧
        readArguments (options.after argument) named rest = .ok command := by
  have hform := Argument.describes_ofText argument
  rw [exists_spells_iff, readArguments]
  cases hargument : Argument.ofText argument with
  | help =>
      rw [hargument] at hform
      exact absurd hform hasks
  | version =>
      rw [hargument] at hform
      exact absurd hform hasks
  | script path =>
      rw [hargument] at hform
      exact absurd hoption hform.1
  | quiet =>
      simp [RunOptions.after, pathOf?, limitOf?, colorOf?, quietOf?, hargument]
  | limit value =>
      simp only [RunOptions.after, pathOf?, limitOf?, colorOf?, quietOf?,
        hargument]
      cases readLimit? value <;> simp
  | color value =>
      simp only [RunOptions.after, pathOf?, limitOf?, colorOf?, quietOf?,
        hargument]
      cases ColorMode.ofText? value <;> simp
  | unknown => simp [limitOf?, colorOf?, quietOf?, hargument]

/-- The first other argument is the script, and there is no second one. -/
theorem readArguments_cons_script (hplain : ¬ IsOption argument) :
    readArguments options named (argument :: rest) = .ok command ↔
      named = false ∧
        readArguments (options.after argument) true rest = .ok command := by
  have hpath := pathOf?_eq_some_iff.mpr ⟨hplain, rfl⟩
  rw [readArguments]
  unfold pathOf? at hpath
  split at hpath
  · next path hargument =>
    cases named <;>
      simp [RunOptions.after, pathOf?, limitOf?, colorOf?, quietOf?, hargument]
  · cases hpath

/-- Arguments are read exactly if all options among them are known and have
valid values, and at most one script is named.  Each changes the options. -/
theorem readArguments_eq_ok_iff {arguments : List String}
    (hasks : ∀ argument ∈ arguments, ¬ AsksAboutProgram argument) :
    readArguments options named arguments = .ok command ↔
      (∀ argument ∈ arguments, IsOption argument →
        ∃ setting, Spells setting argument) ∧
      arguments.countP (¬ IsOption ·) + named.toNat ≤ 1 ∧
      command = .run (arguments.foldl RunOptions.after options) := by
  induction arguments generalizing options named with
  | nil =>
      have hnamed : named.toNat ≤ 1 := Bool.toNat_le named
      simp [readArguments, hnamed, eq_comm]
  | cons argument rest ih =>
      obtain ⟨hfirst, hothers⟩ := List.forall_mem_cons.mp hasks
      rw [List.forall_mem_cons, List.foldl_cons]
      by_cases hoption : IsOption argument
      · rw [readArguments_cons_option hfirst hoption, ih hothers]
        simp [hoption, and_assoc]
      · rw [readArguments_cons_script hoption, ih hothers]
        cases named <;> simp [hoption]

end Runs

section Totals

variable {α : Type} {arguments others : List String}

/-- Each setting has the last value that it is given. -/
theorem foldl_after (arguments : List String) (options : RunOptions) :
    arguments.foldl RunOptions.after options =
      ⟨(arguments.filterMap pathOf?).getLast?.getD options.path,
        (arguments.filterMap limitOf?).getLast?.getD options.limit,
        (arguments.filterMap colorOf?).getLast?.getD options.color,
        (arguments.filterMap quietOf?).getLast?.getD options.quiet⟩ := by
  have hlast : ∀ {β : Type} (read? : String → Option β) (earlier : List String)
      (argument : String) (value : β),
      (read? argument).getD ((earlier.filterMap read?).getLast?.getD value) =
        ((earlier ++ [argument]).filterMap read?).getLast?.getD value := by
    intro β read? earlier argument value
    cases hread : read? argument <;> simp [hread]
  induction arguments using List.reverseRecOn with
  | nil => rfl
  | append_singleton earlier argument ih =>
      rw [List.foldl_append, List.foldl_cons, List.foldl_nil, ih]
      simp only [RunOptions.after, hlast]

theorem filterMap_eq_of_filter {read? : String → Option α}
    {start : String} (hread : ∀ argument value, read? argument = some value →
      argument.startsWith start = true)
    (hsame : arguments.filter (·.startsWith start) =
      others.filter (·.startsWith start)) :
    arguments.filterMap read? = others.filterMap read? := by
  have hfiltered : ∀ list : List String,
      (list.filter (·.startsWith start)).filterMap read? =
        list.filterMap read? := by
    intro list
    rw [List.filterMap_filter]
    congr 1
    funext argument
    split
    · rfl
    · next hother =>
      cases hvalue : read? argument with
      | none => rfl
      | some value => exact absurd (hread argument value hvalue) hother
  rw [← hfiltered, hsame, hfiltered]

/-- A list without two items has no other order. -/
theorem eq_of_perm_of_length_le_one {left right : List α}
    (hperm : left.Perm right) (hlength : left.length ≤ 1) : left = right := by
  match left, hlength with
  | [], _ => exact (List.nil_perm.mp hperm).symm
  | [item], _ => exact List.singleton_perm.mp hperm

theorem length_filterMap_pathOf? (arguments : List String) :
    (arguments.filterMap pathOf?).length =
      arguments.countP (¬ IsOption ·) := by
  rw [List.length_filterMap_eq_countP]
  refine List.countP_congr fun argument _ => ?_
  simp [Option.isSome_iff_exists, pathOf?_eq_some_iff]

/-- The options that arguments add up to are those that they ask for. -/
theorem askedFor_foldl (hscripts : arguments.countP (¬ IsOption ·) ≤ 1) :
    (arguments.foldl RunOptions.after {}).AskedFor arguments := by
  rw [foldl_after]
  refine ⟨?_, ?_, lastSet_getLast? (fun _ _ => limitOf?_eq_some_iff) _ _,
    lastSet_getLast? (fun _ _ => colorOf?_eq_some_iff) _ _, ?_⟩
  · intro argument hargument hplain
    have hmem : (if argument = "-" then none else some argument) ∈
        arguments.filterMap pathOf? :=
      List.mem_filterMap.mpr
        ⟨argument, hargument, pathOf?_eq_some_iff.mpr ⟨hplain, rfl⟩⟩
    rw [← length_filterMap_pathOf?] at hscripts
    match arguments.filterMap pathOf?, hscripts, hmem with
    | [path], _, hmem => exact (List.mem_singleton.mp hmem).symm
  · intro hoptions
    have hnone : arguments.filterMap pathOf? = [] := by
      rw [List.filterMap_eq_nil_iff]
      intro argument hargument
      rw [Option.eq_none_iff_forall_ne_some]
      intro path hpath
      exact (pathOf?_eq_some_iff.mp hpath).1 (hoptions argument hargument)
    rw [hnone]
    rfl
  · rcases lastSet_getLast? (fun _ _ => quietOf?_eq_some_iff) arguments false
      with ⟨earlier, argument, later, harguments, ⟨hquiet, hspells⟩, -⟩ |
        ⟨hnone, hquiet⟩
    · have hmem : argument ∈ arguments := by simp [harguments]
      exact iff_of_true hquiet ⟨argument, hmem, hspells⟩
    · refine iff_of_false (by simpa using hquiet) ?_
      rintro ⟨argument, hargument, hspells⟩
      exact hnone argument hargument true ⟨rfl, hspells⟩

/-- Reordered arguments add up to the same options, if there is at most one
script and the values of each setting stay in order. -/
theorem foldl_after_perm (hperm : arguments.Perm others)
    (hlimits : arguments.filter (·.startsWith "--max-depth=") =
      others.filter (·.startsWith "--max-depth="))
    (hcolors : arguments.filter (·.startsWith "--color=") =
      others.filter (·.startsWith "--color="))
    (hscripts : arguments.countP (¬ IsOption ·) ≤ 1) (options : RunOptions) :
    arguments.foldl RunOptions.after options =
      others.foldl RunOptions.after options := by
  have hpath : arguments.filterMap pathOf? = others.filterMap pathOf? :=
    eq_of_perm_of_length_le_one (hperm.filterMap _)
      (by rwa [length_filterMap_pathOf?])
  have hlimit : arguments.filterMap limitOf? = others.filterMap limitOf? := by
    refine filterMap_eq_of_filter (fun argument limit hlimit => ?_) hlimits
    cases limitOf?_eq_some_iff.mp hlimit
    exact startsWith_iff_exists_append.mpr ⟨_, rfl⟩
  have hcolor : arguments.filterMap colorOf? = others.filterMap colorOf? := by
    refine filterMap_eq_of_filter (fun argument mode hmode => ?_) hcolors
    cases colorOf?_eq_some_iff.mp hmode
    exact startsWith_iff_exists_append.mpr ⟨_, rfl⟩
  have hquiet : arguments.filterMap quietOf? = others.filterMap quietOf? := by
    -- All values are the same, so their number decides.
    have hall : ∀ list : List String, list.filterMap quietOf? =
        List.replicate (list.filterMap quietOf?).length true := by
      intro list
      refine List.eq_replicate_iff.mpr ⟨rfl, fun quiet hmem => ?_⟩
      obtain ⟨argument, -, hread⟩ := List.mem_filterMap.mp hmem
      exact (quietOf?_eq_some_iff.mp hread).1
    rw [hall arguments, hall others, (hperm.filterMap quietOf?).length_eq]
  rw [foldl_after, foldl_after, hpath, hlimit, hcolor, hquiet]

end Totals

/-- If no argument asks about the program, the arguments are accepted exactly if
all options among them are known and have valid values, and at most one other
argument names the script.  The options are then those that the arguments ask
for, and they are the same for all orders of the arguments that keep the values
of each setting in order. -/
theorem arguments_in_any_order (arguments : List String)
    (hasks : ∀ argument ∈ arguments, ¬ AsksAboutProgram argument) :
    ((∃ command, Command.ofArguments arguments = .ok command) ↔
      (∀ argument ∈ arguments, IsOption argument →
        ∃ setting, Spells setting argument) ∧
      arguments.countP (¬ IsOption ·) ≤ 1) ∧
    (∀ command, Command.ofArguments arguments = .ok command →
      ∃ options : RunOptions, command = .run options ∧
        options.AskedFor arguments) ∧
    ∀ others : List String, arguments.Perm others →
      arguments.filter (·.startsWith "--max-depth=") =
        others.filter (·.startsWith "--max-depth=") →
      arguments.filter (·.startsWith "--color=") =
        others.filter (·.startsWith "--color=") →
      ∀ command, Command.ofArguments arguments = .ok command ↔
        Command.ofArguments others = .ok command := by
  have hread : ∀ {list : List String} {command : Command},
      (∀ argument ∈ list, ¬ AsksAboutProgram argument) →
      (Command.ofArguments list = .ok command ↔
        (∀ argument ∈ list, IsOption argument →
          ∃ setting, Spells setting argument) ∧
        list.countP (¬ IsOption ·) ≤ 1 ∧
        command = .run (list.foldl RunOptions.after {})) :=
    fun hlist => readArguments_eq_ok_iff hlist
  refine ⟨?_, ?_, ?_⟩
  · constructor
    · rintro ⟨command, hcommand⟩
      obtain ⟨hknown, hscripts, -⟩ := (hread hasks).mp hcommand
      exact ⟨hknown, hscripts⟩
    · rintro ⟨hknown, hscripts⟩
      exact ⟨_, (hread hasks).mpr ⟨hknown, hscripts, rfl⟩⟩
  · intro command hcommand
    obtain ⟨-, hscripts, hoptions⟩ := (hread hasks).mp hcommand
    exact ⟨_, hoptions, askedFor_foldl hscripts⟩
  · intro others hperm hlimits hcolors command
    rw [hread hasks, hread fun argument hargument =>
      hasks argument (hperm.mem_iff.mpr hargument)]
    have hcount := hperm.countP_eq (¬ IsOption ·)
    rw [← hcount]
    refine and_congr ?_ (and_congr_right fun hscripts => ?_)
    · exact forall_congr' fun argument => by rw [hperm.mem_iff]
    · rw [foldl_after_perm hperm hlimits hcolors hscripts]

/-- Both limits stay in order, and the later one holds. -/
theorem arguments_in_any_order_twoLimits :
    let arguments := ["--max-depth=7", "demo", "-q", "--max-depth=+64"]
    let others := ["-q", "--max-depth=7", "--max-depth=+64", "demo"]
    let command : Command := .run ⟨some "demo", 64, .auto, true⟩
    (∀ argument ∈ arguments, ¬ AsksAboutProgram argument) ∧
      (∃ options : RunOptions, command = .run options ∧
        options.AskedFor arguments) ∧
      Command.ofArguments others = .ok command := by
  intro arguments others command
  have hasks : ∀ argument ∈ arguments, ¬ AsksAboutProgram argument := by
    decide
  have hcommand : Command.ofArguments arguments = .ok command := by
    decide +kernel
  obtain ⟨-, hasked, horder⟩ := arguments_in_any_order arguments hasks
  exact ⟨hasks, hasked command hcommand, (horder others (by decide)
    (by decide +kernel) (by decide +kernel) command).mp hcommand⟩

end ChainScript
