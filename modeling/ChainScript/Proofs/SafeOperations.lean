import ChainScript.Evaluation.Call
import ChainScript.Proofs.Nesting
import ChainScript.Proofs.Safety

/-
The operations that evaluation is made of are safe.

Operators answer with values that refer to nothing, and their faults carry no
value.  Arguments reach parameters unchanged.
-/

namespace ChainScript

open Step

/-- A value that refers to no frame and to no function. -/
def Value.Plain : Value → Prop
  | .array _ | .function _ => False
  | _ => True

/-- A fault that carries no value. -/
def Cause.Bare (cause : Cause) : Prop :=
  (Exit.ofCause cause).values = []

/-- A plain value, or a fault without a value. -/
def PlainResult : Except Cause Value → Prop
  | .ok value => value.Plain
  | .error cause => cause.Bare

theorem Value.Plain.holds {value : Value} (hplain : value.Plain)
    (store : Store) : store.Holds value := by
  cases value with
  | array chain => exact hplain.elim
  | function id => exact hplain.elim
  | _ => trivial

section Operators

theorem plain_exactInt (operation : String) (n : Int) :
    PlainResult (exactInt operation n) := by
  unfold exactInt
  split
  · trivial
  · rfl

theorem plain_comparison (op : BinaryOp) (order : Ordering) (kind : String) :
    PlainResult (comparison op order kind) := by
  unfold comparison
  split
  · trivial
  · rfl

theorem plain_intBinary (op : BinaryOp) (a b : Int64) :
    PlainResult (intBinary op a b) := by
  unfold intBinary
  dsimp only
  split
  · exact plain_exactInt _ _
  · exact plain_exactInt _ _
  · exact plain_exactInt _ _
  · split
    · rfl
    · exact plain_exactInt _ _
  · split
    · rfl
    · split
      · exact plain_exactInt _ _
      · rfl
  · exact plain_comparison _ _ _

theorem plain_floatBinary (op : BinaryOp) (a b : Float) :
    PlainResult (floatBinary op a b) := by
  unfold floatBinary
  split
  · trivial
  · trivial
  · trivial
  · split
    · rfl
    · trivial
  · split
    · rfl
    · trivial
  · split
    · trivial
    · rfl

theorem plain_stringBinary (op : BinaryOp) (a b : String) :
    PlainResult (stringBinary op a b) := by
  unfold stringBinary
  split
  · trivial
  · exact plain_comparison _ _ _

theorem plain_equality (op : BinaryOp) (equal : Bool) (left right : Value) :
    PlainResult (equality op equal left right) := by
  unfold equality
  split
  · trivial
  · trivial
  · rfl

theorem plain_unary (op : UnaryOp) (operand : Value) :
    PlainResult (unary op operand) := by
  unfold unary
  split
  · exact plain_exactInt _ _
  · trivial
  · trivial
  · trivial
  · cases operand <;> trivial
  · rfl

/-- A fault of an operation on conditions, keys and rounds carries no value. -/
theorem bare_toCondition {construct : String} {value : Value} {cause : Cause}
    (hfault : toCondition construct value = .error cause) : cause.Bare := by
  cases value <;> cases hfault <;> rfl

theorem bare_key {value : Value} {cause : Cause}
    (hfault : value.key = .error cause) : cause.Bare := by
  unfold Value.key at hfault
  split at hfault
  · split at hfault <;> cases hfault
    rfl
  · cases hfault
  · cases hfault
    rfl

theorem bare_keyValue {key : Key} {cause : Cause}
    (hfault : key.value = .error cause) : cause.Bare := by
  unfold Key.value at hfault
  split at hfault
  · split at hfault <;> cases hfault
    rfl
  · cases hfault

theorem plain_keyValue {key : Key} {value : Value}
    (hvalue : key.value = .ok value) : value.Plain := by
  unfold Key.value at hvalue
  split at hvalue
  · split at hvalue <;> cases hvalue
    trivial
  · cases hvalue
    trivial

theorem bare_heapCompose {heap : Heap} {left right : Value} {cause : Cause}
    (hfault : heap.compose left right = .error cause) : cause.Bare := by
  unfold Heap.compose at hfault
  split at hfault <;> cases hfault
  rfl

end Operators

/-- A plain value, a fault without a value, or no answer at all. -/
def PlainOutcome : Outcome Cause Value → Prop
  | .ok value => value.Plain
  | .error cause => cause.Bare
  | .halted _ => True

theorem plainOutcome_ofExcept {result : Except Cause Value}
    (hplain : PlainResult result) : PlainOutcome (.ofExcept result) := by
  cases result <;> exact hplain

theorem Outcome.ofExcept_ne_halted {result : Except Cause Value}
    {reason : Halt} : Outcome.ofExcept result ≠ .halted reason := by
  cases result <;> simp [Outcome.ofExcept]

theorem Heap.plain_binary (heap : Heap) (op : BinaryOp) (left right : Value) :
    PlainOutcome (heap.binary op left right) := by
  unfold Heap.binary
  split
  · exact plainOutcome_ofExcept (plain_intBinary _ _ _)
  · exact plainOutcome_ofExcept (plain_floatBinary _ _ _)
  · exact plainOutcome_ofExcept (plain_floatBinary _ _ _)
  · exact plainOutcome_ofExcept (plain_floatBinary _ _ _)
  · exact plainOutcome_ofExcept (plain_stringBinary _ _ _)
  · exact plainOutcome_ofExcept (plain_equality _ _ _ _)
  · exact plainOutcome_ofExcept (plain_equality _ _ _ _)
  · exact plainOutcome_ofExcept (plain_equality _ _ _ _)
  · exact plainOutcome_ofExcept (plain_equality _ _ _ _)
  · split
    · split
      · exact plainOutcome_ofExcept (plain_equality _ _ _ _)
      · trivial
    · split
      · exact plainOutcome_ofExcept (plain_equality _ _ _ _)
      · trivial
    · rfl
  · exact plainOutcome_ofExcept (plain_equality _ _ _ _)
  · rfl

/-- Binary operators on held values are never abandoned. -/
theorem Store.Sound.binary {store : Store} {programs : Array Program}
    (hsound : store.Sound programs) (op : BinaryOp) {left right : Value}
    (hleft : store.Holds left) (hright : store.Holds right) :
    ∃ result, store.heap.binary op left right = .ofExcept result ∧
      PlainResult result := by
  have hplain := store.heap.plain_binary op left right
  cases hend : store.heap.binary op left right with
  | ok value =>
      rw [hend] at hplain
      exact ⟨.ok value, rfl, hplain⟩
  | error cause =>
      rw [hend] at hplain
      exact ⟨.error cause, rfl, hplain⟩
  | halted reason =>
      -- Only a comparison of arrays could be.
      obtain ⟨equal, hequal⟩ :=
        Option.isSome_iff_exists.mp (hsound.equal?_isSome hleft hright)
      unfold Heap.binary at hend
      simp only [hequal] at hend
      split at hend
      case h_10 =>
        split at hend
        · exact absurd hend Outcome.ofExcept_ne_halted
        · exact absurd hend Outcome.ofExcept_ne_halted
        · cases hend
      case h_12 => cases hend
      all_goals exact absurd hend Outcome.ofExcept_ne_halted

/-- The values that a round of a loop binds are its position, which is plain,
and the value of the entry. -/
theorem roundBindings_all {property : Value → Prop}
    (hplain : ∀ value : Value, value.Plain → property value)
    {key : Option String} {name : String} {entry : Key × Value}
    (hentry : property entry.2) {content : Container Value}
    (hround : Worker.roundBindings key name entry = .ok content) :
    content.All property := by
  cases key with
  | none =>
      cases hround
      exact Container.all_empty.set _ hentry
  | some key =>
      cases hvalue : entry.1.value with
      | error cause =>
          simp only [Worker.roundBindings, hvalue] at hround
          cases hround
      | ok position =>
          simp only [Worker.roundBindings, hvalue] at hround
          cases hround
          have hposition := hplain position (plain_keyValue hvalue)
          exact (Container.all_empty.set _ hposition).set _ hentry

theorem bare_roundBindings {key : Option String} {name : String}
    {entry : Key × Value} {cause : Cause}
    (hround : Worker.roundBindings key name entry = .error cause) :
    cause.Bare := by
  cases key with
  | none => cases hround
  | some key =>
      cases hvalue : entry.1.value with
      | error fault =>
          simp only [Worker.roundBindings, hvalue] at hround
          cases hround
          exact bare_keyValue hvalue
      | ok position =>
          simp only [Worker.roundBindings, hvalue] at hround
          cases hround

/-- A raised value is carried by the fault. -/
theorem Cause.mem_values_of_caught {cause : Cause} {value : Value}
    (hraised : cause.caught = .raised value) :
    value ∈ (Exit.ofCause cause).values := by
  unfold Cause.caught at hraised
  split at hraised
  · cases hraised
    exact List.mem_singleton_self _
  · cases hraised

/-- The description of a fault refers to nothing. -/
theorem Cause.plain_of_caught {cause : Cause} {content : Container Value}
    (hdescribed : cause.caught = .described content) :
    content.All Value.Plain := by
  unfold Cause.caught at hdescribed
  split at hdescribed
  · cases hdescribed
  · cases hdescribed
    apply Container.all_ofPairs
    intro pair hpair
    split at hpair <;>
      simp only [List.cons_append, List.nil_append, List.append_nil,
        List.mem_cons, List.not_mem_nil, or_false] at hpair
    · rcases hpair with rfl | rfl | rfl <;> trivial
    · rcases hpair with rfl | rfl <;> trivial

section Arguments

private theorem map_eq_ok {ε α β : Type} {f : α → β} {result : Except ε α}
    {value : β} (hmap : result.map f = .ok value) :
    ∃ inner, result = .ok inner ∧ f inner = value := by
  cases result with
  | error failure => cases hmap
  | ok inner => exact ⟨inner, rfl, Except.ok.inj hmap⟩

theorem map_eq_error {ε α β : Type} {f : α → β} {result : Except ε α}
    {failure : ε} (hmap : result.map f = .error failure) :
    result = .error failure := by
  cases result with
  | error inner => exact congrArg _ (Except.error.inj hmap)
  | ok inner => cases hmap

variable {property : Value → Prop}

/-- All values that parameters have so far. -/
def SlotsAll (property : Value → Prop) (slots : List Slot) : Prop :=
  ∀ slot ∈ slots, ∀ value, slot.2 = some value → property value

private theorem slotsAll_cons {slot : Slot} {slots : List Slot}
    (hslot : ∀ value, slot.2 = some value → property value)
    (hslots : SlotsAll property slots) :
    SlotsAll property (slot :: slots) := by
  intro other hother
  rcases List.mem_cons.mp hother with rfl | hrest
  · exact hslot
  · exact hslots other hrest

private theorem SlotsAll.tail {slot : Slot} {slots : List Slot}
    (hslots : SlotsAll property (slot :: slots)) : SlotsAll property slots :=
  fun other hother => hslots other (List.mem_cons_of_mem _ hother)

private theorem slotsAll_fillNamed? {name : String} {value : Value}
    {slots filled : List Slot} (hslots : SlotsAll property slots)
    (hvalue : property value)
    (hfill : fillNamed? name value slots = some filled) :
    SlotsAll property filled := by
  induction slots generalizing filled with
  | nil => cases hfill
  | cons slot rest ih =>
      obtain ⟨param, old⟩ := slot
      unfold fillNamed? at hfill
      split at hfill
      · cases hfill
        refine slotsAll_cons (fun found hfound => ?_) hslots.tail
        cases hfound
        exact hvalue
      · obtain ⟨others, hothers, rfl⟩ := Option.map_eq_some_iff.mp hfill
        exact slotsAll_cons (hslots _ List.mem_cons_self)
          (ih hslots.tail hothers)

/-- Arguments are sorted without a value or a parameter being changed. -/
private theorem sortArguments_all {function : String} {hasRest : Bool}
    {args : List (Key × Value)} {slots : List Slot} {rest : Container Value}
    {sorted : Sorted} (hargs : ∀ entry ∈ args, property entry.2)
    (hslots : SlotsAll property slots) (hrest : rest.All property)
    (hsort : sortArguments function hasRest args slots rest = .ok sorted) :
    SlotsAll property sorted.slots ∧ sorted.rest.All property ∧
      (∀ value ∈ sorted.positional, property value) ∧
      sorted.slots.map Prod.fst = slots.map Prod.fst := by
  induction args generalizing slots rest sorted with
  | nil =>
      cases hsort
      exact ⟨hslots, hrest, fun _ hvalue => absurd hvalue List.not_mem_nil,
        rfl⟩
  | cons arg args ih =>
      have hfirst := hargs arg List.mem_cons_self
      have hothers : ∀ entry ∈ args, property entry.2 :=
        fun entry hentry => hargs entry (List.mem_cons_of_mem _ hentry)
      obtain ⟨name | position, value⟩ := arg
      · unfold sortArguments at hsort
        split at hsort
        · next filled hfill =>
            obtain ⟨hall, hleft, hpositional, hsame⟩ := ih hothers
              (slotsAll_fillNamed? hslots hfirst hfill) hrest hsort
            exact ⟨hall, hleft, hpositional,
              hsame.trans (map_fst_fillNamed? hfill)⟩
        · split at hsort
          · exact ih hothers hslots (hrest.set _ hfirst) hsort
          · cases hsort
      · obtain ⟨inner, hinner, rfl⟩ := map_eq_ok hsort
        obtain ⟨hall, hleft, hpositional, hsame⟩ :=
          ih hothers hslots hrest hinner
        refine ⟨hall, hleft, fun other hother => ?_, hsame⟩
        rcases List.mem_cons.mp hother with rfl | hmore
        · exact hfirst
        · exact hpositional other hmore

private theorem bare_sortArguments {function : String} {hasRest : Bool}
    {args : List (Key × Value)} {slots : List Slot} {rest : Container Value}
    {cause : Cause}
    (hsort : sortArguments function hasRest args slots rest = .error cause) :
    cause.Bare := by
  induction args generalizing slots rest with
  | nil => cases hsort
  | cons arg args ih =>
      obtain ⟨name | position, value⟩ := arg
      · unfold sortArguments at hsort
        split at hsort
        · exact ih hsort
        · split at hsort
          · exact ih hsort
          · cases hsort
            rfl
      · exact ih (map_eq_error hsort)

private theorem fillPositional_all {slots : List Slot} {values : List Value}
    (hslots : SlotsAll property slots)
    (hvalues : ∀ value ∈ values, property value) :
    SlotsAll property (fillPositional slots values).1 ∧
      ∀ value ∈ (fillPositional slots values).2, property value := by
  fun_induction fillPositional slots values with
  | case1 values => exact ⟨hslots, hvalues⟩
  | case2 slots => exact ⟨hslots, hvalues⟩
  | case3 param old rest values _ slots left heq ih =>
      have hrest := ih hslots.tail hvalues
      rw [heq] at hrest
      exact ⟨slotsAll_cons (hslots _ List.mem_cons_self) hrest.1, hrest.2⟩
  | case4 param rest value values _ slots left heq ih =>
      have hrest := ih hslots.tail hvalues
      rw [heq] at hrest
      refine ⟨slotsAll_cons (fun _ hnone => ?_) hrest.1, hrest.2⟩
      cases hnone
  | case5 param rest value values _ slots left heq ih =>
      have hrest := ih hslots.tail fun other hother =>
        hvalues other (List.mem_cons_of_mem _ hother)
      rw [heq] at hrest
      refine ⟨slotsAll_cons (fun found hfound => ?_) hrest.1, hrest.2⟩
      cases hfound
      exact hvalues value List.mem_cons_self

/-- All values that the arguments supply to a parameter. -/
def Supplied.All (property : Value → Prop) : Supplied → Prop
  | .value given => property given
  | .rest entries => entries.All property

/-- Parameters get values of the arguments or default expressions of the
parameters. -/
structure Bindings.From (property : Value → Prop) (params : List Param)
    (bindings : Bindings) : Prop where
  supplied : ∀ entry ∈ bindings.supplied, entry.2.All property
  defaults : ∀ entry ∈ bindings.defaults,
    ∃ param ∈ params, param.default = some entry.2

private theorem Bindings.From.supply {params : List Param} {param : Param}
    {bindings : Bindings} {name : String} {supplied : Supplied}
    (hfrom : bindings.From property params)
    (hsupplied : supplied.All property) :
    From property (param :: params)
      { bindings with supplied := (name, supplied) :: bindings.supplied } := by
  constructor
  · intro entry hentry
    rcases List.mem_cons.mp hentry with rfl | hrest
    · exact hsupplied
    · exact hfrom.supplied entry hrest
  · intro entry hentry
    obtain ⟨other, hother, hdefault⟩ := hfrom.defaults entry hentry
    exact ⟨other, List.mem_cons_of_mem _ hother, hdefault⟩

private theorem bindSlots_from {function : String} {slots : List Slot}
    {rest : Container Value} {bindings : Bindings}
    (hslots : SlotsAll property slots) (hrest : rest.All property)
    (hbind : bindSlots function slots rest = .ok bindings) :
    bindings.From property (slots.map Prod.fst) := by
  induction slots generalizing rest bindings with
  | nil =>
      cases hbind
      exact ⟨fun _ hentry => absurd hentry List.not_mem_nil,
        fun _ hentry => absurd hentry List.not_mem_nil⟩
  | cons slot slots ih =>
      obtain ⟨param, value⟩ := slot
      unfold bindSlots at hbind
      split at hbind
      · obtain ⟨inner, hinner, rfl⟩ := map_eq_ok hbind
        exact (ih hslots.tail Container.all_empty hinner).supply hrest
      · split at hbind
        · obtain ⟨inner, hinner, rfl⟩ := map_eq_ok hbind
          exact (ih hslots.tail hrest hinner).supply
            (hslots _ List.mem_cons_self _ rfl)
        · next default hdefault =>
            obtain ⟨inner, hinner, rfl⟩ := map_eq_ok hbind
            have hfrom := ih hslots.tail hrest hinner
            refine ⟨hfrom.supplied, fun entry hentry => ?_⟩
            rcases List.mem_cons.mp hentry with rfl | hold
            · exact ⟨param, List.mem_cons_self, hdefault⟩
            · obtain ⟨other, hother, heq⟩ := hfrom.defaults entry hold
              exact ⟨other, List.mem_cons_of_mem _ hother, heq⟩
        · cases hbind

private theorem bare_bindSlots {function : String} {slots : List Slot}
    {rest : Container Value} {cause : Cause}
    (hbind : bindSlots function slots rest = .error cause) : cause.Bare := by
  induction slots generalizing rest with
  | nil => cases hbind
  | cons slot slots ih =>
      obtain ⟨param, value⟩ := slot
      unfold bindSlots at hbind
      split at hbind
      · exact ih (map_eq_error hbind)
      · split at hbind
        · exact ih (map_eq_error hbind)
        · exact ih (map_eq_error hbind)
        · cases hbind
          rfl

private theorem all_appendAll {values : List Value} {rest : Container Value}
    (hvalues : ∀ value ∈ values, property value)
    (hrest : rest.All property) :
    (values.foldl (fun rest value => (rest.append value).2) rest).All
      property := by
  induction values generalizing rest with
  | nil => exact hrest
  | cons value values ih =>
      exact ih (fun other hother => hvalues other
        (List.mem_cons_of_mem _ hother))
        (hrest.append (hvalues value List.mem_cons_self))

theorem bindArguments_from {function : String} {params : List Param}
    {args : Container Value} {bindings : Bindings}
    (hargs : args.All property)
    (hbind : bindArguments function params args = .ok bindings) :
    bindings.From property params := by
  unfold bindArguments at hbind
  dsimp only at hbind
  cases hsort : sortArguments function (params.any Param.rest) args.entries
      (params.map fun param => (param, none)) .empty with
  | error cause =>
      rw [hsort] at hbind
      cases hbind
  | ok sorted =>
      rw [hsort] at hbind
      have hnone : SlotsAll property (params.map fun param => (param, none)) := by
        intro slot hslot value hvalue
        obtain ⟨param, _, rfl⟩ := List.mem_map.mp hslot
        cases hvalue
      obtain ⟨hslots, hrest, hpositional, hsame⟩ :=
        sortArguments_all hargs hnone Container.all_empty hsort
      obtain ⟨hfilled, hleft⟩ := fillPositional_all hslots hpositional
      have hparams : (fillPositional sorted.slots sorted.positional).1.map
          Prod.fst = params := by
        rw [map_fst_fillPositional, hsame, List.map_map]
        exact List.map_id params
      change (if _ then _ else _) = _ at hbind
      split at hbind
      · cases hbind
      · rw [← hparams]
        exact bindSlots_from hfilled (all_appendAll hleft hrest) hbind

theorem bare_bindArguments {function : String} {params : List Param}
    {args : Container Value} {cause : Cause}
    (hbind : bindArguments function params args = .error cause) :
    cause.Bare := by
  unfold bindArguments at hbind
  dsimp only at hbind
  cases hsort : sortArguments function (params.any Param.rest) args.entries
      (params.map fun param => (param, none)) .empty with
  | error inner =>
      rw [hsort] at hbind
      cases hbind
      exact bare_sortArguments hsort
  | ok sorted =>
      rw [hsort] at hbind
      change (if _ then _ else _) = _ at hbind
      split at hbind
      · cases hbind
        rfl
      · exact bare_bindSlots hbind

end Arguments

end ChainScript
