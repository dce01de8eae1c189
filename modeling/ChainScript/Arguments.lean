import ChainScript.Fault

/-
Matching the arguments of a call against parameters.

An argument with a label goes to the parameter of that name; one whose label
names no parameter goes to the rest parameter.  Arguments with a position fill
the other parameters in order, and those left over go to the rest parameter.
A parameter that is still without a value needs a default.
-/

namespace ChainScript

/-- What a parameter is bound to by the arguments alone. -/
inductive Supplied where
  | value (value : Value)
  /-- The entries of the array that a rest parameter gets. -/
  | rest (entries : Container Value)
deriving Repr, DecidableEq

/-- The parameters with their values in order of declaration, and those that
are left to their defaults. -/
structure Bindings where
  supplied : List (String × Supplied)
  defaults : List (String × ExprId)
deriving Repr, DecidableEq

/-- A parameter and the value that it has so far. -/
abbrev Slot := Param × Option Value

/-- Give a value to the first parameter with a name, if there is one. -/
def fillNamed? (name : String) (value : Value) :
    List Slot → Option (List Slot)
  | [] => none
  | (param, old) :: rest =>
      if !param.rest && param.name = name then some ((param, some value) :: rest)
      else (fillNamed? name value rest).map ((param, old) :: ·)

/-- Values that arguments give to named parameters leave the parameters
themselves and their order alone. -/
theorem map_fst_fillNamed? {name : String} {value : Value}
    {slots filled : List Slot}
    (hfill : fillNamed? name value slots = some filled) :
    filled.map Prod.fst = slots.map Prod.fst := by
  induction slots generalizing filled with
  | nil => cases hfill
  | cons slot rest ih =>
      obtain ⟨param, old⟩ := slot
      unfold fillNamed? at hfill
      split at hfill
      · cases hfill
        rfl
      · obtain ⟨others, hothers, rfl⟩ := Option.map_eq_some_iff.mp hfill
        simp [ih hothers]

/-- Arguments sorted by where they go. -/
structure Sorted where
  slots : List Slot
  rest : Container Value
  positional : List Value

/-- Sort arguments in order. -/
def sortArguments (function : String) (hasRest : Bool) :
    List (Key × Value) → List Slot → Container Value →
      Except Cause Sorted
  | [], slots, rest => .ok ⟨slots, rest, []⟩
  | (.index _, value) :: args, slots, rest =>
      (sortArguments function hasRest args slots rest).map fun sorted =>
        { sorted with positional := value :: sorted.positional }
  | (.badge name, value) :: args, slots, rest =>
      match fillNamed? name value slots with
      | some slots => sortArguments function hasRest args slots rest
      | none =>
          if hasRest then
            sortArguments function hasRest args slots
              (rest.set (.badge name) value)
          else .error (.arity function (.unknown name))

/-- Give positional values to the parameters that have none yet; the values
that are left over are returned. -/
def fillPositional : List Slot → List Value → List Slot × List Value
  | [], values => ([], values)
  | slots, [] => (slots, [])
  | (param, some old) :: rest, values =>
      let (slots, left) := fillPositional rest values
      ((param, some old) :: slots, left)
  | (param, none) :: rest, value :: values =>
      if param.rest then
        let (slots, left) := fillPositional rest (value :: values)
        ((param, none) :: slots, left)
      else
        let (slots, left) := fillPositional rest values
        ((param, some value) :: slots, left)

theorem map_fst_fillPositional (slots : List Slot) (values : List Value) :
    (fillPositional slots values).1.map Prod.fst = slots.map Prod.fst := by
  fun_induction fillPositional slots values with
  | case1 => rfl
  | case2 => rfl
  | case3 param old rest values _ slots left heq ih => simp_all
  | case4 => simp_all
  | case5 => simp_all

/-- Bind the parameters in order.  The first rest parameter gets all arguments
that are left over. -/
def bindSlots (function : String) :
    List Slot → Container Value → Except Cause Bindings
  | [], _ => .ok ⟨[], []⟩
  | (param, value) :: slots, rest =>
      if param.rest then
        (bindSlots function slots .empty).map fun bindings =>
          { bindings with
            supplied := (param.name, .rest rest) :: bindings.supplied }
      else
        match value, param.default with
        | some value, _ =>
            (bindSlots function slots rest).map fun bindings =>
              { bindings with
                supplied := (param.name, .value value) :: bindings.supplied }
        | none, some default =>
            (bindSlots function slots rest).map fun bindings =>
              { bindings with
                defaults := (param.name, default) :: bindings.defaults }
        | none, none => .error (.arity function (.missing param.name))

/-- Match arguments against parameters; the function is named in faults. -/
def bindArguments (function : String) (params : List Param)
    (args : Container Value) : Except Cause Bindings := do
  let hasRest := params.any Param.rest
  let sorted ← sortArguments function hasRest args.entries
    (params.map fun param => (param, none)) .empty
  let (slots, left) := fillPositional sorted.slots sorted.positional
  if !left.isEmpty && !hasRest then
    .error (.arity function (.tooMany (params.countP fun param => !param.rest)
      sorted.positional.length))
  else
    bindSlots function slots
      (left.foldl (fun rest value => (rest.append value).2) sorted.rest)

example :
    (bindArguments "f" [⟨"x", none, false, .origin⟩, ⟨"y", none, false, .origin⟩]
      (.ofPairs [(.index 0, .int 1), (.badge "x", .int 2)])).toOption =
    some ⟨[("x", .value (.int 2)), ("y", .value (.int 1))], []⟩ := by
  decide +kernel

end ChainScript
