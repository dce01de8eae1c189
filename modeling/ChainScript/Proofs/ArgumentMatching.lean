import ChainScript.Arguments
import ChainScript.Proofs.ContainerLaws
import Mathlib.Data.List.Perm.Subperm

/-
Which argument goes to which parameter.

Every label takes the first parameter of its name out of the list, and the
positions go to the parameters that are left, one by one.  The three passes
over the parameters are described one after another: what sorting makes of the
slots, what positions make of them then, and what the slots are bound to in the
end.  Whether the arguments fit can be said without any of these passes.
-/

namespace ChainScript

/-- Whether an argument with a label goes to this parameter, unless an earlier
one has the same name. -/
def Param.isNamed (name : String) (param : Param) : Bool :=
  !param.rest && param.name = name

theorem Param.isNamed_iff {name : String} {param : Param} :
    param.isNamed name = true ↔ param.rest = false ∧ param.name = name := by
  simp [Param.isNamed]

/-- Parameters without the first one of each of some names. -/
def dropNamed (names : List String) (params : List Param) : List Param :=
  names.foldl (fun left name => left.eraseP (Param.isNamed name)) params

/-- The labels of some arguments. -/
def labels : List (Key × Value) → List String
  | [] => []
  | (.badge name, _) :: args => name :: labels args
  | (.index _, _) :: args => labels args

theorem mem_labels {name : String} {args : List (Key × Value)} :
    name ∈ labels args ↔ .badge name ∈ args.map Prod.fst := by
  induction args with
  | nil => simp [labels]
  | cons arg args ih =>
      obtain ⟨other | position, value⟩ := arg
      · simpa [labels] using or_congr_right ih
      · simpa [labels] using ih

/-- The arguments that have a position. -/
def positionals : List (Key × Value) → List Value
  | [] => []
  | (.badge _, _) :: args => positionals args
  | (.index _, value) :: args => value :: positionals args

/-- Whether a key is a label that names one of some parameters. -/
def Key.isLabelOf (params : List Param) : Key → Bool
  | .badge name => params.any (Param.isNamed name)
  | .index _ => false

/-- Whether a key is a label that names none of some parameters. -/
def Key.isUnknownTo (params : List Param) : Key → Bool
  | .badge name => !params.any (Param.isNamed name)
  | .index _ => false

/-- The arguments whose labels name no parameter. -/
def unknownArgs (params : List Param) (args : List (Key × Value)) :
    List (Key × Value) :=
  args.filter fun entry => entry.1.isUnknownTo params

/-- The parameters that labels leave to positions and defaults. -/
def unlabelled (params : List Param) (args : Container Value) : List Param :=
  dropNamed (labels args.entries) (params.filter fun param => !param.rest)

theorem dropNamed_sublist (names : List String) (params : List Param) :
    (dropNamed names params).Sublist params := by
  induction names generalizing params with
  | nil => exact List.Sublist.refl params
  | cons name names ih => exact (ih _).trans List.eraseP_sublist

/-- The parameters that labels leave over keep their order. -/
theorem unlabelled_sublist (params : List Param) (args : Container Value) :
    (unlabelled params args).Sublist (params.filter fun param => !param.rest) :=
  dropNamed_sublist _ _

theorem rest_of_mem_unlabelled {params : List Param} {args : Container Value}
    {param : Param} (hparam : param ∈ unlabelled params args) :
    param.rest = false := by
  have hplain := (List.mem_filter.mp
    ((unlabelled_sublist params args).subset hparam)).2
  simpa using hplain

/-- The arguments with a position that find no parameter. -/
def leftovers (params : List Param) (args : Container Value) : List Value :=
  (positionals args.entries).drop (unlabelled params args).length

/-- Arguments fit parameters: every label finds a parameter, and so does every
position, if need be the rest parameter; and the parameters that get nothing
have a default. -/
structure Fits (params : List Param) (args : Container Value) : Prop where
  known : ∀ name ∈ labels args.entries,
    params.any (Param.isNamed name) = true ∨ params.any Param.rest = true
  room : (positionals args.entries).length ≤ (unlabelled params args).length ∨
    params.any Param.rest = true
  complete :
    ∀ param ∈ (unlabelled params args).drop (positionals args.entries).length,
      param.default.isSome = true

instance (params : List Param) (args : Container Value) :
    Decidable (Fits params args) :=
  decidable_of_iff (_ ∧ _ ∧ _)
    ⟨fun ⟨hknown, hroom, hcomplete⟩ => ⟨hknown, hroom, hcomplete⟩,
      fun hfits => ⟨hfits.known, hfits.room, hfits.complete⟩⟩

/-- A parameter that still waits for a value. -/
def Slot.isOpen (slot : Slot) : Bool :=
  !slot.1.rest && slot.2.isNone

def openParams (slots : List Slot) : List Param :=
  (slots.filter Slot.isOpen).map Prod.fst

/-- The value that a parameter holds.  A rest parameter holds none itself. -/
def Slot.held? (slot : Slot) : Option Value :=
  if slot.1.rest then none else slot.2

/-- The values that parameters hold, in order. -/
def heldValues (slots : List Slot) : List Value :=
  slots.filterMap Slot.held?

@[simp] theorem openParams_cons_held (param : Param) (value : Value)
    (slots : List Slot) :
    openParams ((param, some value) :: slots) = openParams slots := by
  simp [openParams, Slot.isOpen]

theorem openParams_cons_waiting {param : Param} (hrest : param.rest = false)
    (slots : List Slot) :
    openParams ((param, none) :: slots) = param :: openParams slots := by
  simp [openParams, Slot.isOpen, hrest]

theorem openParams_cons_rest {param : Param} (hrest : param.rest = true)
    (value : Option Value) (slots : List Slot) :
    openParams ((param, value) :: slots) = openParams slots := by
  simp [openParams, Slot.isOpen, hrest]

@[simp] theorem heldValues_cons_none (param : Param) (slots : List Slot) :
    heldValues ((param, none) :: slots) = heldValues slots := by
  simp [heldValues, Slot.held?]

theorem heldValues_cons_some {param : Param} (hrest : param.rest = false)
    (value : Value) (slots : List Slot) :
    heldValues ((param, some value) :: slots) = value :: heldValues slots := by
  simp [heldValues, Slot.held?, hrest]

theorem heldValues_cons_rest {param : Param} (hrest : param.rest = true)
    (value : Option Value) (slots : List Slot) :
    heldValues ((param, value) :: slots) = heldValues slots := by
  simp [heldValues, Slot.held?, hrest]

theorem openParams_append (first second : List Slot) :
    openParams (first ++ second) = openParams first ++ openParams second := by
  simp [openParams]

theorem heldValues_append (first second : List Slot) :
    heldValues (first ++ second) = heldValues first ++ heldValues second :=
  List.filterMap_append

section Labels

variable {name : String} {value : Value} {slots filled : List Slot}

/-- A label goes to the first parameter of its name. -/
theorem fillNamed?_eq_some (hfill : fillNamed? name value slots = some filled) :
    ∃ before param old after,
      slots = before ++ (param, old) :: after ∧
        (∀ slot ∈ before, slot.1.isNamed name = false) ∧
        param.isNamed name = true ∧
        filled = before ++ (param, some value) :: after := by
  induction slots generalizing filled with
  | nil => cases hfill
  | cons slot rest ih =>
      obtain ⟨param, old⟩ := slot
      unfold fillNamed? at hfill
      split at hfill
      · next hnamed =>
          cases hfill
          exact ⟨[], param, old, rest, rfl, by simp, hnamed, rfl⟩
      · next hother =>
          obtain ⟨others, hothers, rfl⟩ := Option.map_eq_some_iff.mp hfill
          obtain ⟨before, found, empty, after, rfl, hbefore, hnamed, rfl⟩ :=
            ih hothers
          refine ⟨(param, old) :: before, found, empty, after, rfl, ?_,
            hnamed, rfl⟩
          intro slot hslot
          rcases List.mem_cons.mp hslot with rfl | hrest
          · exact Bool.eq_false_iff.mpr hother
          · exact hbefore slot hrest

theorem fillNamed?_eq_none :
    fillNamed? name value slots = none ↔
      (slots.map Prod.fst).any (Param.isNamed name) = false := by
  induction slots with
  | nil => simp [fillNamed?]
  | cons slot rest ih =>
      obtain ⟨param, old⟩ := slot
      unfold fillNamed?
      rw [List.map_cons, List.any_cons, Bool.or_eq_false_iff, ← ih]
      split
      · next hnamed =>
          have htrue : param.isNamed name = true := hnamed
          simp [htrue]
      · next hother =>
          have hfalse : param.isNamed name = false :=
            Bool.eq_false_iff.mpr hother
          simp [hfalse]

theorem any_isNamed_of_fill
    (hfill : fillNamed? name value slots = some filled) :
    (slots.map Prod.fst).any (Param.isNamed name) = true := by
  rw [← Bool.not_eq_false, ← fillNamed?_eq_none, hfill]
  nofun

/-- The parameter that a label goes to does not wait any longer. -/
theorem openParams_fillNamed?
    (hfill : fillNamed? name value slots = some filled)
    (hwaits : ∀ slot ∈ slots, slot.1.isNamed name = true → slot.2 = none) :
    openParams filled = (openParams slots).eraseP (Param.isNamed name) := by
  obtain ⟨before, param, old, after, rfl, hbefore, hnamed, rfl⟩ :=
    fillNamed?_eq_some hfill
  have hold : old = none := hwaits (param, old) (by simp) hnamed
  have hrest : param.rest = false := (Param.isNamed_iff.mp hnamed).1
  have hskip : ∀ other ∈ openParams before, ¬ other.isNamed name = true := by
    intro other hother
    obtain ⟨slot, hslot, rfl⟩ := List.mem_map.mp hother
    simp [hbefore slot (List.mem_filter.mp hslot).1]
  rw [hold, openParams_append, openParams_append, openParams_cons_held,
    openParams_cons_waiting hrest, List.eraseP_append_right _ hskip,
    List.eraseP_cons_of_pos hnamed]

/-- The parameter that a label goes to holds one more value. -/
theorem heldValues_fillNamed?
    (hfill : fillNamed? name value slots = some filled)
    (hwaits : ∀ slot ∈ slots, slot.1.isNamed name = true → slot.2 = none) :
    (heldValues filled).Perm (value :: heldValues slots) := by
  obtain ⟨before, param, old, after, rfl, -, hnamed, rfl⟩ :=
    fillNamed?_eq_some hfill
  have hold : old = none := hwaits (param, old) (by simp) hnamed
  have hrest : param.rest = false := (Param.isNamed_iff.mp hnamed).1
  rw [hold, heldValues_append, heldValues_append, heldValues_cons_none,
    heldValues_cons_some hrest]
  exact List.perm_middle

end Labels

/-- Arguments whose labels are given once: a parameter that has a value is not
named any more. -/
def Unnamed (args : List (Key × Value)) (slots : List Slot) : Prop :=
  ∀ slot ∈ slots, .badge slot.1.name ∈ args.map Prod.fst → slot.2 = none

/-- What sorting makes of slots and of the content of the rest parameter. -/
structure Sorts (args : List (Key × Value)) (slots : List Slot)
    (rest : Container Value) (sorted : Sorted) : Prop where
  params : sorted.slots.map Prod.fst = slots.map Prod.fst
  waiting : openParams sorted.slots = dropNamed (labels args) (openParams slots)
  kept : ∀ param value, (param, some value) ∈ slots →
    (param, some value) ∈ sorted.slots
  labelled : ∀ name value, (.badge name, value) ∈ args →
    (slots.map Prod.fst).any (Param.isNamed name) = true →
      ∃ param, param.isNamed name = true ∧
        (param, some value) ∈ sorted.slots
  held : (heldValues sorted.slots).Perm (heldValues slots ++
    (args.filter fun entry => entry.1.isLabelOf (slots.map Prod.fst)).map
      Prod.snd)
  rest : sorted.rest = rest.setAll (unknownArgs (slots.map Prod.fst) args)
  positional : sorted.positional = positionals args

section Sorting

variable {function name : String} {hasRest : Bool} {value : Value}
  {args : List (Key × Value)} {slots filled : List Slot}
  {rest : Container Value} {sorted : Sorted}

theorem Unnamed.waits
    (hunnamed : Unnamed ((.badge name, value) :: args) slots) :
    ∀ slot ∈ slots, slot.1.isNamed name = true → slot.2 = none := by
  intro slot hslot hnamed
  apply hunnamed slot hslot
  rw [(Param.isNamed_iff.mp hnamed).2]
  exact List.mem_cons_self

theorem Unnamed.tail {arg : Key × Value}
    (hunnamed : Unnamed (arg :: args) slots) : Unnamed args slots :=
  fun slot hslot hnamed => hunnamed slot hslot (List.mem_cons_of_mem _ hnamed)

theorem Unnamed.fill (hunnamed : Unnamed args slots)
    (hnew : .badge name ∉ args.map Prod.fst)
    (hfill : fillNamed? name value slots = some filled) :
    Unnamed args filled := by
  obtain ⟨before, param, old, after, rfl, -, hnamed, rfl⟩ :=
    fillNamed?_eq_some hfill
  intro slot hslot hgiven
  rcases List.mem_append.mp hslot with hbefore | hrest
  · exact hunnamed slot (List.mem_append_left _ hbefore) hgiven
  · rcases List.mem_cons.mp hrest with rfl | hafter
    · rw [(Param.isNamed_iff.mp hnamed).2] at hgiven
      exact absurd hgiven hnew
    · exact hunnamed slot (by simp [hafter]) hgiven

theorem Sorts.nil : Sorts [] slots rest ⟨slots, rest, []⟩ where
  params := rfl
  waiting := rfl
  kept := fun _ _ => id
  labelled := fun _ _ hgiven => absurd hgiven List.not_mem_nil
  held := by simp
  rest := rfl
  positional := rfl

theorem Sorts.position (hsorts : Sorts args slots rest sorted)
    (position : UInt64) (value : Value) :
    Sorts ((.index position, value) :: args) slots rest
      { sorted with positional := value :: sorted.positional } where
  params := hsorts.params
  waiting := hsorts.waiting
  kept := hsorts.kept
  labelled := fun name given hgiven hnamed =>
    hsorts.labelled name given (by simpa using hgiven) hnamed
  held := by simpa [Key.isLabelOf] using hsorts.held
  rest := by simpa [unknownArgs, Key.isUnknownTo] using hsorts.rest
  positional := congrArg (value :: ·) hsorts.positional

/-- A label that names no parameter goes to the rest parameter. -/
theorem Sorts.unknown
    (hnone : (slots.map Prod.fst).any (Param.isNamed name) = false)
    (hsorts : Sorts args slots (rest.set (.badge name) value) sorted) :
    Sorts ((.badge name, value) :: args) slots rest sorted where
  params := hsorts.params
  waiting := by
    have hskip : ∀ param ∈ openParams slots, ¬ param.isNamed name = true := by
      intro param hparam
      obtain ⟨slot, hslot, rfl⟩ := List.mem_map.mp hparam
      have hslot := List.mem_map_of_mem (f := Prod.fst)
        (List.mem_filter.mp hslot).1
      exact List.any_eq_false.mp hnone _ hslot
    rw [hsorts.waiting, labels, dropNamed, dropNamed, List.foldl_cons,
      List.eraseP_of_forall_not hskip]
  kept := hsorts.kept
  labelled := by
    intro other given hgiven hnamed
    rcases List.mem_cons.mp hgiven with hfirst | hmore
    · cases hfirst
      rw [hnone] at hnamed
      cases hnamed
    · exact hsorts.labelled other given hmore hnamed
  held := by
    have hother : ¬ (Key.badge name).isLabelOf (slots.map Prod.fst) = true := by
      simp only [Key.isLabelOf, hnone, Bool.false_eq_true, not_false_eq_true]
    rw [List.filter_cons, if_neg hother]
    exact hsorts.held
  rest := by
    have hunknown :
        (Key.badge name).isUnknownTo (slots.map Prod.fst) = true := by
      simp only [Key.isUnknownTo, hnone, Bool.not_false]
    rw [unknownArgs, List.filter_cons, if_pos hunknown]
    exact hsorts.rest
  positional := hsorts.positional

/-- A label that names a parameter fills it. -/
theorem Sorts.label
    (hunnamed : Unnamed ((.badge name, value) :: args) slots)
    (hfill : fillNamed? name value slots = some filled)
    (hsorts : Sorts args filled rest sorted) :
    Sorts ((.badge name, value) :: args) slots rest sorted := by
  have hparams := map_fst_fillNamed? hfill
  have hany := any_isNamed_of_fill hfill
  have hopen := openParams_fillNamed? hfill hunnamed.waits
  have hheld := heldValues_fillNamed? hfill hunnamed.waits
  obtain ⟨before, param, old, after, hslots, -, hnamed, hfilled⟩ :=
    fillNamed?_eq_some hfill
  refine ⟨hsorts.params.trans hparams, ?_, ?_, ?_, ?_, ?_,
    hsorts.positional⟩
  · rw [hsorts.waiting, hopen]
    rfl
  · intro other given hgiven
    apply hsorts.kept
    have hempty : (param, old) ∈ slots := by simp [hslots]
    have hne : (other, some given) ≠ (param, old) := by
      rintro heq
      have hnone := hunnamed.waits _ hempty hnamed
      rw [← heq] at hnone
      cases hnone
    rw [hslots] at hgiven
    simp only [List.mem_append, List.mem_cons, hne, false_or] at hgiven
    rw [hfilled]
    rcases hgiven with hbefore | hafter
    · exact List.mem_append_left _ hbefore
    · simp [hafter]
  · intro other given hgiven hother
    rcases List.mem_cons.mp hgiven with hfirst | hmore
    · cases hfirst
      exact ⟨param, hnamed, hsorts.kept _ _ (by simp [hfilled])⟩
    · exact hsorts.labelled other given hmore (hparams ▸ hother)
  · have hall := hsorts.held.trans (hheld.append_right _)
    rw [hparams] at hall
    have hlabel : (Key.badge name).isLabelOf (slots.map Prod.fst) = true := hany
    rw [List.filter_cons, if_pos hlabel]
    exact hall.trans List.perm_middle.symm
  · have hknown :
        ¬ (Key.badge name).isUnknownTo (slots.map Prod.fst) = true := by
      simp only [Key.isUnknownTo, hany, Bool.not_true, Bool.false_eq_true,
        not_false_eq_true]
    rw [hsorts.rest, hparams, unknownArgs, unknownArgs, List.filter_cons,
      if_neg hknown]

/-- Sorting fails exactly if there is no place for a label. -/
theorem sortArguments_cases (function : String) (hasRest : Bool)
    (rest : Container Value) (hnodup : (args.map Prod.fst).Nodup)
    (hunnamed : Unnamed args slots) :
    (∃ sorted,
      sortArguments function hasRest args slots rest = .ok sorted ∧
        Sorts args slots rest sorted ∧
        ∀ name ∈ labels args,
          (slots.map Prod.fst).any (Param.isNamed name) = true ∨
            hasRest = true) ∨
      ∃ name ∈ labels args,
        (slots.map Prod.fst).any (Param.isNamed name) = false ∧
          hasRest = false ∧
          sortArguments function hasRest args slots rest =
            .error (.arity function (.unknown name)) := by
  induction args generalizing slots rest with
  | nil =>
      exact .inl ⟨_, rfl, .nil, fun _ hname => absurd hname List.not_mem_nil⟩
  | cons arg args ih =>
      obtain ⟨name | position, value⟩ := arg
      · rw [List.map_cons, List.nodup_cons] at hnodup
        cases hfill : fillNamed? name value slots with
        | some filled =>
            have hparams := map_fst_fillNamed? hfill
            have hrest := ih rest hnodup.2 (hunnamed.tail.fill hnodup.1 hfill)
            rw [hparams] at hrest
            rw [sortArguments, hfill]
            rcases hrest with ⟨sorted, hok, hsorts, hknown⟩ |
              ⟨other, hother, hnone, hno, herror⟩
            · refine .inl ⟨sorted, hok, hsorts.label hunnamed hfill, ?_⟩
              intro other hother
              rcases List.mem_cons.mp hother with rfl | hmore
              · exact .inl (any_isNamed_of_fill hfill)
              · exact hknown other hmore
            · exact .inr ⟨other, List.mem_cons_of_mem _ hother, hnone, hno,
                herror⟩
        | none =>
            have hnone := fillNamed?_eq_none.mp hfill
            rw [sortArguments, hfill]
            cases hasRest with
            | false => exact .inr ⟨name, List.mem_cons_self, hnone, rfl, rfl⟩
            | true =>
                rcases ih (rest.set (.badge name) value) hnodup.2
                    hunnamed.tail with
                  ⟨sorted, hok, hsorts, -⟩ | ⟨_, _, _, hno, _⟩
                · exact .inl ⟨sorted, hok, hsorts.unknown hnone,
                    fun _ _ => .inr rfl⟩
                · cases hno
      · rw [List.map_cons, List.nodup_cons] at hnodup
        rw [sortArguments]
        rcases ih rest hnodup.2 hunnamed.tail with
          ⟨sorted, hok, hsorts, hknown⟩ | ⟨other, hother, hnone, hno, herror⟩
        · exact .inl ⟨_, by rw [hok]; rfl, hsorts.position position value,
            hknown⟩
        · exact .inr ⟨other, hother, hnone, hno, by rw [herror]; rfl⟩

end Sorting

section Positions

variable (slots : List Slot) (values : List Value)

/-- Positions go to the parameters that wait, one by one. -/
theorem openParams_fillPositional :
    openParams (fillPositional slots values).1 =
      (openParams slots).drop values.length := by
  fun_induction fillPositional slots values with
  | case1 => simp [openParams]
  | case2 => rfl
  | case3 param old rest values _ slots left heq ih => simpa [heq] using ih
  | case4 param rest value values hrest slots left heq ih =>
      simpa [heq, openParams_cons_rest hrest] using ih
  | case5 param rest value values hrest slots left heq ih =>
      rw [Bool.not_eq_true] at hrest
      simpa [heq, openParams_cons_waiting hrest] using ih

theorem snd_fillPositional :
    (fillPositional slots values).2 =
      values.drop (openParams slots).length := by
  fun_induction fillPositional slots values with
  | case1 => rfl
  | case2 => simp
  | case3 param old rest values _ slots left heq ih => simpa [heq] using ih
  | case4 param rest value values hrest slots left heq ih =>
      simpa [heq, openParams_cons_rest hrest] using ih
  | case5 param rest value values hrest slots left heq ih =>
      rw [Bool.not_eq_true] at hrest
      simpa [heq, openParams_cons_waiting hrest] using ih

variable {param : Param} {value : Value}

/-- A parameter that has a value keeps it. -/
theorem mem_fillPositional_of_mem (hheld : (param, some value) ∈ slots) :
    (param, some value) ∈ (fillPositional slots values).1 := by
  fun_induction fillPositional slots values with
  | case1 => exact hheld
  | case2 => exact hheld
  | case3 first old rest values _ slots left heq ih =>
      rw [heq] at ih
      rcases List.mem_cons.mp hheld with hfirst | hmore
      · exact hfirst ▸ List.mem_cons_self
      · exact List.mem_cons_of_mem _ (ih hmore)
  | case4 first rest other values hrest slots left heq ih =>
      rw [heq] at ih
      exact List.mem_cons_of_mem _ (ih (by simpa using hheld))
  | case5 first rest other values hrest slots left heq ih =>
      rw [heq] at ih
      exact List.mem_cons_of_mem _ (ih (by simpa using hheld))

/-- The parameters that wait get the positions in order. -/
theorem mem_fillPositional_of_zip
    (hgiven : (param, value) ∈ (openParams slots).zip values) :
    (param, some value) ∈ (fillPositional slots values).1 := by
  fun_induction fillPositional slots values with
  | case1 => simp [openParams] at hgiven
  | case2 => simp at hgiven
  | case3 first old rest values _ slots left heq ih =>
      rw [openParams_cons_held] at hgiven
      rw [heq] at ih
      exact List.mem_cons_of_mem _ (ih hgiven)
  | case4 first rest other values hrest slots left heq ih =>
      rw [openParams_cons_rest hrest] at hgiven
      rw [heq] at ih
      exact List.mem_cons_of_mem _ (ih hgiven)
  | case5 first rest other values hrest slots left heq ih =>
      rw [Bool.not_eq_true] at hrest
      rw [openParams_cons_waiting hrest, List.zip_cons_cons] at hgiven
      rw [heq] at ih
      rcases List.mem_cons.mp hgiven with hfirst | hmore
      · cases hfirst
        exact List.mem_cons_self
      · exact List.mem_cons_of_mem _ (ih hmore)

/-- Every value with a position is held by a parameter or left over. -/
theorem heldValues_fillPositional :
    (heldValues (fillPositional slots values).1 ++
      (fillPositional slots values).2).Perm (heldValues slots ++ values) := by
  fun_induction fillPositional slots values with
  | case1 => rfl
  | case2 => rfl
  | case3 param old rest values _ slots left heq ih =>
      rw [heq] at ih
      cases hrest : param.rest with
      | true => simpa [heldValues_cons_rest hrest] using ih
      | false => simpa [heldValues_cons_some hrest] using ih
  | case4 param rest value values hrest slots left heq ih =>
      simpa [heq] using ih
  | case5 param rest value values hrest slots left heq ih =>
      rw [Bool.not_eq_true] at hrest
      rw [heq] at ih
      rw [heldValues_cons_some hrest, heldValues_cons_none]
      exact (ih.cons value).trans List.perm_middle.symm

end Positions

/-- What parameters are bound to: their values, and the first rest parameter to
the array of what is left over. -/
def suppliedBy : List Slot → Container Value → List (String × Supplied)
  | [], _ => []
  | (param, value) :: slots, rest =>
      if param.rest then (param.name, .rest rest) :: suppliedBy slots .empty
      else
        match value with
        | some value => (param.name, .value value) :: suppliedBy slots rest
        | none => suppliedBy slots rest

section Supplied

variable {param : Param} (slots : List Slot) (rest : Container Value)

theorem suppliedBy_cons_rest (hrest : param.rest = true)
    (value : Option Value) :
    suppliedBy ((param, value) :: slots) rest =
      (param.name, .rest rest) :: suppliedBy slots .empty := by
  simp only [suppliedBy, hrest, if_true]

theorem suppliedBy_cons_some (hrest : param.rest = false) (value : Value) :
    suppliedBy ((param, some value) :: slots) rest =
      (param.name, .value value) :: suppliedBy slots rest := by
  simp only [suppliedBy, hrest, Bool.false_eq_true, if_false]

theorem suppliedBy_cons_none (hrest : param.rest = false) :
    suppliedBy ((param, none) :: slots) rest = suppliedBy slots rest := by
  simp only [suppliedBy, hrest, Bool.false_eq_true, if_false]

end Supplied

/-- The defaults of some parameters, in order. -/
def defaultsOf (params : List Param) : List (String × ExprId) :=
  params.filterMap fun param => param.default.map fun default =>
    (param.name, default)

theorem map_defaultsOf {params : List Param}
    (hall : ∀ param ∈ params, param.default.isSome = true) :
    (defaultsOf params).map (fun entry => (entry.1, some entry.2)) =
      params.map fun param => (param.name, param.default) := by
  induction params with
  | nil => rfl
  | cons param rest ih =>
      obtain ⟨default, hdefault⟩ :=
        Option.isSome_iff_exists.mp (hall param List.mem_cons_self)
      have hrest := ih fun other hother =>
        hall other (List.mem_cons_of_mem _ hother)
      simp only [defaultsOf] at hrest ⊢
      simp [hdefault, hrest]

section Binding

variable (function : String) (slots : List Slot) (rest : Container Value)

/-- Binding fails exactly if a parameter that still waits has no default. -/
theorem bindSlots_cases :
    (bindSlots function slots rest =
        .ok ⟨suppliedBy slots rest, defaultsOf (openParams slots)⟩ ∧
      ∀ param ∈ openParams slots, param.default.isSome = true) ∨
      ∃ param ∈ openParams slots, param.default = none ∧
        bindSlots function slots rest =
          .error (.arity function (.missing param.name)) := by
  induction slots generalizing rest with
  | nil => exact .inl ⟨rfl, fun _ hparam => absurd hparam List.not_mem_nil⟩
  | cons slot slots ih =>
      obtain ⟨param, value⟩ := slot
      cases hrest : param.rest with
      | true =>
          rw [openParams_cons_rest hrest]
          refine (ih .empty).imp (fun ⟨hok, hall⟩ => ⟨?_, hall⟩)
            fun ⟨missing, hmem, hnone, herror⟩ => ⟨missing, hmem, hnone, ?_⟩
          · simp [bindSlots, suppliedBy_cons_rest _ _ hrest, hrest, hok,
              Except.map]
          · simp [bindSlots, hrest, herror, Except.map]
      | false =>
          cases value with
          | some value =>
              rw [openParams_cons_held]
              refine (ih rest).imp (fun ⟨hok, hall⟩ => ⟨?_, hall⟩)
                fun ⟨missing, hmem, hnone, herror⟩ =>
                  ⟨missing, hmem, hnone, ?_⟩
              · simp [bindSlots, suppliedBy_cons_some _ _ hrest, hrest, hok,
                  Except.map]
              · simp [bindSlots, hrest, herror, Except.map]
          | none =>
              rw [openParams_cons_waiting hrest]
              cases hdefault : param.default with
              | none =>
                  exact .inr ⟨param, List.mem_cons_self, hdefault, by
                    simp [bindSlots, hrest, hdefault]⟩
              | some default =>
                  refine (ih rest).imp (fun ⟨hok, hall⟩ => ⟨?_, ?_⟩)
                    fun ⟨missing, hmem, hnone, herror⟩ =>
                      ⟨missing, List.mem_cons_of_mem _ hmem, hnone, ?_⟩
                  · simp [bindSlots, suppliedBy_cons_none _ _ hrest,
                      defaultsOf, hrest, hdefault, hok, Except.map]
                  · simpa [hdefault] using hall
                  · simp [bindSlots, hrest, hdefault, herror, Except.map]

variable {slots rest} {param : Param} {value : Value}

theorem mem_suppliedBy_of_held (hheld : (param, some value) ∈ slots)
    (hrest : param.rest = false) :
    (param.name, .value value) ∈ suppliedBy slots rest := by
  induction slots generalizing rest with
  | nil => cases hheld
  | cons slot slots ih =>
      obtain ⟨first, old⟩ := slot
      rcases List.mem_cons.mp hheld with hfirst | hmore
      · cases hfirst
        rw [suppliedBy_cons_some _ _ hrest]
        exact List.mem_cons_self
      · cases hother : first.rest with
        | true =>
            rw [suppliedBy_cons_rest _ _ hother]
            exact List.mem_cons_of_mem _ (ih hmore)
        | false =>
            cases old with
            | some old =>
                rw [suppliedBy_cons_some _ _ hother]
                exact List.mem_cons_of_mem _ (ih hmore)
            | none =>
                rw [suppliedBy_cons_none _ _ hother]
                exact ih hmore

/-- A rest parameter that is the only one gets all that is left over. -/
theorem mem_suppliedBy_of_rest (hparam : param ∈ slots.map Prod.fst)
    (hrest : param.rest = true)
    (honly : (slots.map Prod.fst).countP Param.rest ≤ 1) :
    (param.name, .rest rest) ∈ suppliedBy slots rest := by
  induction slots with
  | nil => cases hparam
  | cons slot slots ih =>
      obtain ⟨first, value⟩ := slot
      rw [List.map_cons, List.countP_cons] at honly
      rcases List.mem_cons.mp hparam with rfl | hmore
      · rw [suppliedBy_cons_rest _ _ hrest]
        exact List.mem_cons_self
      · have hpos : 0 < (slots.map Prod.fst).countP Param.rest :=
          List.countP_pos_iff.mpr ⟨param, hmore, hrest⟩
        cases hfirst : first.rest with
        | true =>
            rw [if_pos hfirst] at honly
            omega
        | false =>
            have hmem := ih hmore (by omega)
            cases value with
            | some value =>
                rw [suppliedBy_cons_some _ _ hfirst]
                exact List.mem_cons_of_mem _ hmem
            | none =>
                rw [suppliedBy_cons_none _ _ hfirst]
                exact hmem

variable (rest) in
/-- Parameters with a value and rest parameters are bound at once, the others
to their defaults. -/
theorem names_suppliedBy_defaultsOf
    (hall : ∀ param ∈ openParams slots, param.default.isSome = true) :
    ((suppliedBy slots rest).map Prod.fst ++
      (defaultsOf (openParams slots)).map Prod.fst).Perm
      ((slots.map Prod.fst).map Param.name) := by
  induction slots generalizing rest with
  | nil => rfl
  | cons slot slots ih =>
      obtain ⟨param, value⟩ := slot
      cases hrest : param.rest with
      | true =>
          rw [openParams_cons_rest hrest] at hall ⊢
          rw [suppliedBy_cons_rest _ _ hrest]
          exact (ih .empty hall).cons param.name
      | false =>
          cases value with
          | some value =>
              rw [openParams_cons_held] at hall ⊢
              rw [suppliedBy_cons_some _ _ hrest]
              exact (ih rest hall).cons param.name
          | none =>
              rw [openParams_cons_waiting hrest] at hall ⊢
              obtain ⟨default, hdefault⟩ :=
                Option.isSome_iff_exists.mp (hall param List.mem_cons_self)
              have hmore := ih rest fun other hother =>
                hall other (List.mem_cons_of_mem _ hother)
              simp only [suppliedBy_cons_none _ _ hrest, defaultsOf,
                List.filterMap_cons, hdefault, Option.map_some, List.map_cons]
              exact List.perm_middle.trans (hmore.cons param.name)

end Binding

/-- Values under the positions from some position on. -/
def numberedFrom (start : Nat) (values : List Value) : List (Key × Value) :=
  (values.zipIdx start).map fun (value, position) =>
    (.index (.ofNat position), value)

/-- The content of the rest parameter: the arguments whose labels name no
parameter, and then the positions that are left over. -/
def restContent (params : List Param) (args : Container Value) :
    Container Value :=
  (leftovers params args).foldl (fun rest value => (rest.append value).2)
    (Container.empty.setAll (unknownArgs params args.entries))

section Leftovers

/-- Appended values get the positions from the next one on. -/
theorem Container.entries_appendAll {base : Container Value} {start : Nat}
    (hnext : taken base.next = start)
    (hused : ∀ key ∈ base.keys, key.taken ≤ start) {values : List Value}
    (hfew : start + values.length ≤ UInt64.size) :
    (values.foldl (fun rest value => (rest.append value).2) base).entries =
      base.entries ++ numberedFrom start values := by
  induction values generalizing base start with
  | nil => simp [numberedFrom]
  | cons value values ih =>
      rw [List.length_cons] at hfew
      cases hfree : base.next with
      | none =>
          rw [hfree, taken] at hnext
          omega
      | some free =>
          rw [hfree, taken] at hnext
          have hnew : .index free ∉ base.keys := by
            intro hold
            have hle := hused _ hold
            rw [Key.taken] at hle
            omega
          have hentries : (base.set (.index free) value).entries =
              base.entries ++ [(.index free, value)] :=
            setEntry_of_not_mem value hnew
          have hafter : taken (base.set (.index free) value).next =
              start + 1 := by
            rw [taken_next_set, hfree, taken, Key.taken]
            omega
          have hposition : UInt64.ofNat start = free := by
            rw [← hnext, UInt64.ofNat_toNat]
          have hrest := ih hafter (fun key hkey => by
            rcases mem_keys_set.mp hkey with hold | rfl
            · exact Nat.le_succ_of_le (hused key hold)
            · rw [Key.taken]
              omega) (by omega)
          rw [List.foldl_cons, append_of_next hfree, hrest, hentries,
            List.append_assoc]
          simp [numberedFrom, hposition]

/-- The positions that some arguments have. -/
def positions : List (Key × Value) → List UInt64
  | [] => []
  | (.badge _, _) :: args => positions args
  | (.index position, _) :: args => position :: positions args

theorem length_positions (args : List (Key × Value)) :
    (positions args).length = (positionals args).length := by
  induction args with
  | nil => rfl
  | cons arg args ih =>
      obtain ⟨name | position, value⟩ := arg
      · exact ih
      · exact congrArg Nat.succ ih

theorem mem_positions {position : UInt64} {args : List (Key × Value)} :
    position ∈ positions args ↔ .index position ∈ args.map Prod.fst := by
  induction args with
  | nil => simp [positions]
  | cons arg args ih =>
      obtain ⟨name | other, value⟩ := arg
      · simpa [positions] using ih
      · simpa [positions] using or_congr_right ih

theorem nodup_positions {args : List (Key × Value)}
    (hnodup : (args.map Prod.fst).Nodup) : (positions args).Nodup := by
  induction args with
  | nil => exact List.nodup_nil
  | cons arg args ih =>
      rw [List.map_cons, List.nodup_cons] at hnodup
      obtain ⟨name | position, value⟩ := arg
      · exact ih hnodup.2
      · exact List.nodup_cons.mpr
          ⟨fun hold => hnodup.1 (mem_positions.mp hold), ih hnodup.2⟩

/-- There are not more arguments with a position than positions. -/
theorem length_positionals_le {args : List (Key × Value)}
    (hnodup : (args.map Prod.fst).Nodup) :
    (positionals args).length ≤ UInt64.size := by
  let numbers := (positions args).map UInt64.toNat
  have hnumbers : numbers.Nodup :=
    List.Pairwise.map UInt64.toNat
      (fun _ _ hne heq => hne (UInt64.toNat_inj.mp heq))
      (nodup_positions hnodup)
  have hbelow : numbers ⊆ List.range UInt64.size := by
    intro number hnumber
    obtain ⟨position, -, rfl⟩ := List.mem_map.mp hnumber
    exact List.mem_range.mpr position.toNat_lt
  have hle := (List.subperm_of_subset hnumbers hbelow).length_le
  rw [List.length_map, List.length_range, length_positions] at hle
  exact hle

theorem badges_unknownArgs {params : List Param} {args : List (Key × Value)}
    {key : Key} (hkey : key ∈ (unknownArgs params args).map Prod.fst) :
    key.isIndex = false := by
  obtain ⟨⟨label | position, value⟩, hentry, rfl⟩ := List.mem_map.mp hkey
  · rfl
  · cases (List.mem_filter.mp hentry).2

/-- Labels take up no positions. -/
theorem Container.next_setAll_badges {base : Container Value}
    {entries : List (Key × Value)}
    (hbadges : ∀ key ∈ entries.map Prod.fst, key.isIndex = false) :
    (base.setAll entries).next = base.next := by
  induction entries generalizing base with
  | nil => rfl
  | cons entry rest ih =>
      obtain ⟨name | position, value⟩ := entry
      · rw [setAll_cons, ih fun key hkey =>
          hbadges key (List.mem_cons_of_mem _ hkey)]
        exact next_set_badge base name value
      · cases hbadges _ List.mem_cons_self

variable {params : List Param} {args : Container Value}

/-- The rest parameter gets the arguments with labels under their own labels,
and the others under positions from zero on. -/
theorem entries_restContent (hdistinct : args.Distinct) :
    (restContent params args).entries =
      unknownArgs params args.entries ++
        numberedFrom 0 (leftovers params args) := by
  have hunknown : ((unknownArgs params args.entries).map Prod.fst).Nodup :=
    (List.filter_sublist.map Prod.fst).nodup hdistinct
  let base := (Container.empty : Container Value).setAll
    (unknownArgs params args.entries)
  have hentries : base.entries = unknownArgs params args.entries :=
    Container.entries_setAll hunknown
  have hnext : base.next = some 0 :=
    Container.next_setAll_badges fun _ => badges_unknownArgs
  have hused : ∀ key ∈ base.keys, key.taken ≤ 0 := by
    intro key hkey
    rw [Container.keys, hentries] at hkey
    cases key with
    | badge name => exact Nat.le_refl 0
    | index position => cases badges_unknownArgs hkey
  have hfew : 0 + (leftovers params args).length ≤ UInt64.size := by
    have hall := length_positionals_le hdistinct
    rw [leftovers, List.length_drop]
    omega
  rw [← hentries]
  exact Container.entries_appendAll (by rw [hnext]; rfl) hused hfew

end Leftovers

/-- What the arguments make of the parameters before they are bound. -/
structure Matched (params : List Param) (args : Container Value)
    (slots : List Slot) : Prop where
  declared : slots.map Prod.fst = params
  waiting : openParams slots =
    (unlabelled params args).drop (positionals args.entries).length
  labelled : ∀ name value, (.badge name, value) ∈ args.entries →
    params.any (Param.isNamed name) = true →
      ∃ param, param.isNamed name = true ∧ (param, some value) ∈ slots
  positional : ∀ param value,
    (param, value) ∈
      (unlabelled params args).zip (positionals args.entries) →
        (param, some value) ∈ slots
  held : (heldValues slots ++ leftovers params args).Perm
    ((args.entries.filter fun entry => entry.1.isLabelOf params).map Prod.snd ++
      positionals args.entries)

section Start

variable {params : List Param} {args : Container Value} {start : List Slot}
  {rest : Container Value} {sorted : Sorted}
  (hdeclared : start.map Prod.fst = params)
  (hempty : ∀ slot ∈ start, slot.2 = none)

include hdeclared hempty

/-- Sorting leaves the parameters to positions that are not labelled. -/
theorem Sorts.openParams (hsorts : Sorts args.entries start rest sorted) :
    openParams sorted.slots = unlabelled params args := by
  have hopen : ∀ slot ∈ start, slot.isOpen = !slot.1.rest := by
    intro slot hslot
    simp [Slot.isOpen, hempty slot hslot]
  rw [hsorts.waiting, unlabelled, ← hdeclared, List.filter_map,
    ChainScript.openParams, List.filter_congr hopen]
  rfl

/-- Sorting and then filling in positions matches all arguments but for the
labels that name no parameter and the positions that are left over. -/
theorem Sorts.matched (hsorts : Sorts args.entries start rest sorted) :
    Matched params args
      (fillPositional sorted.slots sorted.positional).1 := by
  have hopen := hsorts.openParams hdeclared hempty
  have hnone : heldValues start = [] :=
    List.filterMap_eq_nil_iff.mpr fun slot hslot => by
      simp [Slot.held?, hempty slot hslot]
  refine ⟨?_, ?_, ?_, ?_, ?_⟩
  · rw [map_fst_fillPositional, hsorts.params, hdeclared]
  · rw [openParams_fillPositional, hopen, hsorts.positional]
  · intro name value hgiven hnamed
    obtain ⟨param, hparam, hheld⟩ :=
      hsorts.labelled name value hgiven (hdeclared ▸ hnamed)
    exact ⟨param, hparam, mem_fillPositional_of_mem _ _ hheld⟩
  · intro param value hgiven
    apply mem_fillPositional_of_zip
    rw [hopen, hsorts.positional]
    exact hgiven
  · have hfilled := heldValues_fillPositional sorted.slots sorted.positional
    rw [snd_fillPositional, hopen, hsorts.positional] at hfilled
    have hheld := hsorts.held
    rw [hnone, hdeclared] at hheld
    rw [leftovers, hsorts.positional]
    exact hfilled.trans (hheld.append_right _)

end Start

/-- Once the labels have found their places, the positions need places, and
what still waits then needs defaults. -/
theorem bindArguments_of_sorted (function : String) {params : List Param}
    {args : Container Value} {sorted : Sorted}
    (hsort : sortArguments function (params.any Param.rest) args.entries
      (params.map fun param => (param, none)) .empty = .ok sorted)
    (hopen : openParams sorted.slots = unlabelled params args)
    (hrest : sorted.rest = Container.empty.setAll
      (unknownArgs params args.entries))
    (hpositional : sorted.positional = positionals args.entries) :
    bindArguments function params args =
      if !(leftovers params args).isEmpty && !params.any Param.rest then
        .error (.arity function
          (.tooMany (params.countP fun param => !param.rest)
            (positionals args.entries).length))
      else bindSlots function
        (fillPositional sorted.slots sorted.positional).1
        (restContent params args) := by
  have hleft : (fillPositional sorted.slots sorted.positional).2 =
      leftovers params args := by
    rw [snd_fillPositional, hopen, hpositional, leftovers]
  unfold bindArguments restContent
  dsimp only
  rw [hsort, ← hleft, ← hrest, ← hpositional]
  rfl

/-- Arguments that fit are matched and bound, and others are refused. -/
theorem bindArguments_cases (function : String) (params : List Param)
    {args : Container Value} (hdistinct : args.Distinct) :
    (∃ slots, Fits params args ∧ Matched params args slots ∧
      bindArguments function params args =
        .ok ⟨suppliedBy slots (restContent params args),
          defaultsOf (openParams slots)⟩) ∨
      (¬ Fits params args ∧ ∃ issue,
        bindArguments function params args =
          .error (.arity function issue)) := by
  let start : List Slot := params.map fun param => (param, none)
  have hdeclared : start.map Prod.fst = params := by
    rw [List.map_map]
    exact List.map_id params
  have hempty : ∀ slot ∈ start, slot.2 = none := by
    intro slot hslot
    obtain ⟨param, -, rfl⟩ := List.mem_map.mp hslot
    rfl
  have hsorting := sortArguments_cases function (params.any Param.rest)
    .empty hdistinct fun slot hslot _ => hempty slot hslot
  rw [hdeclared] at hsorting
  rcases hsorting with
    ⟨sorted, hsort, hsorts, hknown⟩ | ⟨name, hname, hnone, hno, hsort⟩
  · have hmatched := hsorts.matched hdeclared hempty
    have hrest := hsorts.rest
    rw [hdeclared] at hrest
    have hbind := bindArguments_of_sorted function hsort
      (hsorts.openParams hdeclared hempty) hrest hsorts.positional
    have hroom : leftovers params args = [] ↔
        (positionals args.entries).length ≤ (unlabelled params args).length :=
      List.drop_eq_nil_iff
    split at hbind
    · next hmany =>
        rw [Bool.and_eq_true, Bool.not_eq_true', Bool.not_eq_true',
          List.isEmpty_eq_false_iff] at hmany
        refine .inr ⟨fun hfits => ?_, _, hbind⟩
        rcases hfits.room with hle | hany
        · exact hmany.1 (hroom.mpr hle)
        · rw [hmany.2] at hany
          cases hany
    · next hplaced =>
        rcases bindSlots_cases function
            (fillPositional sorted.slots sorted.positional).1
            (restContent params args) with
          ⟨hok, hall⟩ | ⟨param, hparam, hnone, herror⟩
        · refine .inl ⟨_, ⟨hknown, ?_, ?_⟩, hmatched, hbind.trans hok⟩
          · rw [Bool.and_eq_true, not_and_or, Bool.not_eq_true,
              Bool.not_eq_true, Bool.not_eq_false', Bool.not_eq_false',
              List.isEmpty_iff, hroom] at hplaced
            exact hplaced
          · rw [← hmatched.waiting]
            exact hall
        · refine .inr ⟨fun hfits => ?_, _, hbind.trans herror⟩
          rw [hmatched.waiting] at hparam
          have hdefault := hfits.complete param hparam
          rw [hnone] at hdefault
          cases hdefault
  · refine .inr ⟨fun hfits => ?_, .unknown name, ?_⟩
    · rcases hfits.known name hname with hany | hany
      · rw [hnone] at hany
        cases hany
      · rw [hno] at hany
        cases hany
    · unfold bindArguments
      dsimp only
      rw [hsort]
      rfl

end ChainScript
