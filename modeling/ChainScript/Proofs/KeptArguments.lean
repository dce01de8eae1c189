import ChainScript.Proofs.CallFrames
import ChainScript.Proofs.Store
import ChainScript.Proofs.UnassignedNames
import ChainScript.ScriptText

/-
Where the arguments of a call are kept.

Every argument that is bound has a place of its own, at a parameter or in the
array of a rest parameter.  The places are filled before the first default is
evaluated.  A default is code like any other and may assign to a parameter, but
nothing else takes an argument from its place.
-/

namespace ChainScript

open Step Machine

/-- Where an argument can be kept: at a parameter, or under a key of the array
of a rest parameter. -/
inductive ArgumentPlace where
  | own (param : String)
  | inRest (param : String) (key : Key)
deriving Repr, DecidableEq

namespace ArgumentPlace

/-- The parameter that a place belongs to. -/
def param : ArgumentPlace → String
  | .own param => param
  | .inRest param _ => param

/-- A place at a parameter, or in the array of a rest parameter. -/
def BelongsTo (param : Param) : ArgumentPlace → Prop
  | .own name => param.name = name ∧ param.rest = false
  | .inRest name _ => param.name = name ∧ param.rest = true

/-- What the frame of a call shows at a place. -/
def Shows (heap : Heap) (callee : FrameId) (value : Value) :
    ArgumentPlace → Prop
  | .own param => (heap.frame callee).get? (.badge param) = some value
  | .inRest param key =>
      ∃ chain,
        (heap.frame callee).get? (.badge param) = some (.array chain) ∧
          heap.lookup? chain key = some value

end ArgumentPlace

/-- The places that a parameter has for what is supplied to it. -/
def Supplied.places (param : String) : Supplied → List (ArgumentPlace × Value)
  | .value given => [(.own param, given)]
  | .rest entries =>
      entries.entries.map fun entry => (.inRest param entry.1, entry.2)

/-- The places of all that is supplied, with the values there. -/
def placesOf (supplied : List (String × Supplied)) :
    List (ArgumentPlace × Value) :=
  supplied.flatMap fun entry => entry.2.places entry.1

def Supplied.isRest : Supplied → Bool
  | .value _ => false
  | .rest _ => true

theorem Supplied.belongsTo_of_mem_places {given : Supplied} {param : Param}
    (hrest : param.rest = given.isRest) {entry : ArgumentPlace × Value}
    (hentry : entry ∈ given.places param.name) : entry.1.BelongsTo param := by
  cases given with
  | value given =>
      cases List.mem_singleton.mp hentry
      exact ⟨rfl, hrest⟩
  | rest entries =>
      obtain ⟨_, -, rfl⟩ := List.mem_map.mp hentry
      exact ⟨rfl, hrest⟩

theorem Supplied.param_of_mem_places {given : Supplied} {param : String}
    {entry : ArgumentPlace × Value} (hentry : entry ∈ given.places param) :
    entry.1.param = param := by
  cases given with
  | value given =>
      cases List.mem_singleton.mp hentry
      rfl
  | rest entries =>
      obtain ⟨_, -, rfl⟩ := List.mem_map.mp hentry
      rfl

/-- The entries that are supplied to a rest parameter have distinct keys. -/
def Supplied.Distinct : Supplied → Prop
  | .value _ => True
  | .rest entries => entries.Distinct

theorem Supplied.Distinct.nodup_places {given : Supplied}
    (hdistinct : given.Distinct) (param : String) :
    ((given.places param).map Prod.fst).Nodup := by
  cases given with
  | value given => exact List.pairwise_singleton _ _
  | rest entries =>
      have hkeys : entries.keys.Nodup := hdistinct
      have hplaces : (entries.keys.map (ArgumentPlace.inRest param)).Nodup :=
        List.Pairwise.map _
          (fun _ _ hne heq => hne (ArgumentPlace.inRest.inj heq).2) hkeys
      rw [Container.keys, List.map_map] at hplaces
      rw [places, List.map_map]
      exact hplaces

/-- No place is given twice. -/
theorem nodup_placesOf {supplied : List (String × Supplied)}
    (hnodup : (supplied.map Prod.fst).Nodup)
    (hdistinct : ∀ entry ∈ supplied, entry.2.Distinct) :
    ((placesOf supplied).map Prod.fst).Nodup := by
  induction supplied with
  | nil => exact List.nodup_nil
  | cons first rest ih =>
      obtain ⟨param, given⟩ := first
      rw [List.map_cons, List.nodup_cons] at hnodup
      have hgiven : given.Distinct :=
        hdistinct (param, given) List.mem_cons_self
      have hfirst := hgiven.nodup_places param
      have hrest := ih hnodup.2 fun entry hentry =>
        hdistinct entry (List.mem_cons_of_mem _ hentry)
      rw [placesOf, List.flatMap_cons, List.map_append]
      refine List.nodup_append.mpr ⟨hfirst, hrest, ?_⟩
      intro place hplace other hother heq
      obtain ⟨entry, hentry, rfl⟩ := List.mem_map.mp hplace
      obtain ⟨later, hlater, rfl⟩ := List.mem_map.mp hother
      obtain ⟨source, hsource, hgiven⟩ := List.mem_flatMap.mp hlater
      have hparam := Supplied.param_of_mem_places hentry
      rw [heq, Supplied.param_of_mem_places hgiven] at hparam
      exact hnodup.1 (List.mem_map.mpr ⟨source, hsource, hparam⟩)

/-- The frame of a call shows at each place what it holds there. -/
theorem Supplied.ShownAs.shows {heap : Heap} {callee : FrameId}
    {given : Supplied} {held value : Value} {param : String}
    {place : ArgumentPlace}
    (hshown : given.ShownAs heap callee held) (hdistinct : given.Distinct)
    (hheld : (heap.frame callee).get? (.badge param) = some held)
    (hplace : (place, value) ∈ given.places param) :
    place.Shows heap callee value := by
  cases given with
  | value given =>
      cases List.mem_singleton.mp hplace
      exact hshown ▸ hheld
  | rest entries =>
      obtain ⟨link, rfl, -, hframe⟩ := hshown
      obtain ⟨⟨key, value⟩, hentry, hsame⟩ := List.mem_map.mp hplace
      cases hsame
      have hvalue : entries.get? key = some value :=
        valueAt?_of_mem hdistinct hentry
      refine ⟨[link], hheld, ?_⟩
      simp [Heap.lookup?, Heap.resolve?, Heap.resolveIn, Chain.frames, hframe,
        hvalue]

section Values

variable {slots : List Slot} {params : List Param} {args : Container Value}

/-- What is supplied is supplied to a parameter, in the form that fits it. -/
theorem exists_of_mem_suppliedBy {rest : Container Value}
    (hrest : rest.Distinct) {entry : String × Supplied}
    (hentry : entry ∈ suppliedBy slots rest) :
    entry.2.Distinct ∧ ∃ param ∈ slots.map Prod.fst,
      param.name = entry.1 ∧ param.rest = entry.2.isRest := by
  induction slots generalizing rest with
  | nil => cases hentry
  | cons slot slots ih =>
      obtain ⟨param, value⟩ := slot
      have hlater (others : Container Value) (hothers : others.Distinct)
          (hmore : entry ∈ suppliedBy slots others) :
          entry.2.Distinct ∧ ∃ other ∈ param :: slots.map Prod.fst,
            other.name = entry.1 ∧ other.rest = entry.2.isRest := by
        obtain ⟨hdistinct, other, hother, hsame⟩ := ih hothers hmore
        exact ⟨hdistinct, other, List.mem_cons_of_mem _ hother, hsame⟩
      cases hform : param.rest with
      | true =>
          rw [suppliedBy_cons_rest _ _ hform] at hentry
          rcases List.mem_cons.mp hentry with rfl | hmore
          · exact ⟨hrest, param, List.mem_cons_self, rfl, hform⟩
          · exact hlater .empty Container.distinct_empty hmore
      | false =>
          cases value with
          | some value =>
              rw [suppliedBy_cons_some _ _ hform] at hentry
              rcases List.mem_cons.mp hentry with rfl | hmore
              · exact ⟨trivial, param, List.mem_cons_self, rfl, hform⟩
              · exact hlater rest hrest hmore
          | none =>
              rw [suppliedBy_cons_none _ _ hform] at hentry
              exact hlater rest hrest hentry

theorem Container.Distinct.appendAll {base : Container Value}
    (hdistinct : base.Distinct) (values : List Value) :
    (values.foldl (fun rest value => (rest.append value).2) base).Distinct := by
  induction values generalizing base with
  | nil => exact hdistinct
  | cons value values ih => exact ih (hdistinct.append value)

theorem distinct_restContent (params : List Param) (args : Container Value) :
    (restContent params args).Distinct :=
  (Container.distinct_empty.setAll _).appendAll _

/-- The values at the places are those that parameters hold, and those that a
rest parameter gets. -/
theorem values_placesOf_suppliedBy (slots : List Slot)
    (rest : Container Value) :
    ((placesOf (suppliedBy slots rest)).map Prod.snd).Perm
      (heldValues slots ++
        if (slots.map Prod.fst).any Param.rest then rest.values else []) := by
  induction slots generalizing rest with
  | nil => exact .refl _
  | cons slot slots ih =>
      obtain ⟨param, value⟩ := slot
      cases hrest : param.rest with
      | true =>
          have hmore := ih .empty
          simp only [Container.values, Container.empty, List.map_nil, ite_self,
            List.append_nil] at hmore
          have hvalues : (rest.entries.map fun entry =>
              (ArgumentPlace.inRest param.name entry.1, entry.2)).map Prod.snd =
                rest.values :=
            List.map_map
          simp only [suppliedBy_cons_rest _ _ hrest, placesOf,
            List.flatMap_cons, Supplied.places, List.map_append,
            heldValues_cons_rest hrest, List.map_cons, List.any_cons, hrest,
            Bool.true_or, if_true, hvalues]
          exact (hmore.append_left _).trans List.perm_append_comm
      | false =>
          cases value with
          | some value =>
              simp only [suppliedBy_cons_some _ _ hrest, placesOf,
                List.flatMap_cons, Supplied.places, List.map_cons,
                List.any_cons, hrest, Bool.false_or,
                heldValues_cons_some hrest, List.cons_append]
              exact (ih rest).cons value
          | none =>
              simp only [suppliedBy_cons_none _ _ hrest, List.map_cons,
                List.any_cons, hrest, Bool.false_or, heldValues_cons_none]
              exact ih rest

/-- Every argument has a label that names a parameter, a label that names none,
or a position. -/
theorem perm_values (params : List Param) (args : List (Key × Value)) :
    (args.map Prod.snd).Perm
      ((args.filter fun entry => entry.1.isLabelOf params).map Prod.snd ++
        ((unknownArgs params args).map Prod.snd ++ positionals args)) := by
  induction args with
  | nil => exact .refl _
  | cons arg args ih =>
      obtain ⟨name | position, value⟩ := arg
      · cases hnamed : params.any (Param.isNamed name) with
        | true =>
            simp only [unknownArgs, positionals, List.filter_cons, Key.isLabelOf,
              Key.isUnknownTo, hnamed, Bool.not_true, Bool.false_eq_true,
              if_true, if_false, List.map_cons, List.cons_append]
            exact ih.cons value
        | false =>
            simp only [unknownArgs, positionals, List.filter_cons, Key.isLabelOf,
              Key.isUnknownTo, hnamed, Bool.not_false, Bool.false_eq_true,
              if_true, if_false, List.map_cons, List.cons_append]
            exact (ih.cons value).trans List.perm_middle.symm
      · simp only [unknownArgs, positionals, List.filter_cons, List.map_cons,
          Key.isLabelOf, Key.isUnknownTo, Bool.false_eq_true, if_false]
        rw [← List.append_assoc]
        refine (ih.cons value).trans ?_
        rw [← List.append_assoc]
        exact List.perm_middle.symm

theorem values_restContent (hdistinct : args.Distinct) :
    (restContent params args).values =
      (unknownArgs params args.entries).map Prod.snd ++
        leftovers params args := by
  have hnumbered : (numberedFrom 0 (leftovers params args)).map Prod.snd =
      leftovers params args := by
    rw [numberedFrom, List.map_map]
    exact List.zipIdx_map_fst 0 _
  rw [Container.values, entries_restContent hdistinct, List.map_append,
    hnumbered]

/-- Without a rest parameter, arguments that fit leave nothing over. -/
theorem Fits.rest_values (hfits : Fits params args)
    (hdistinct : args.Distinct) :
    (if params.any Param.rest then (restContent params args).values else []) =
      (unknownArgs params args.entries).map Prod.snd ++
        leftovers params args := by
  cases hany : params.any Param.rest with
  | true => exact values_restContent hdistinct
  | false =>
      have hunknown : unknownArgs params args.entries = [] := by
        refine List.filter_eq_nil_iff.mpr fun entry hentry hunknown => ?_
        obtain ⟨name | position, value⟩ := entry
        · have hname := mem_labels.mpr (List.mem_map_of_mem hentry)
          rcases hfits.known name hname with hnamed | hrest
          · simp [Key.isUnknownTo, hnamed] at hunknown
          · rw [hany] at hrest
            cases hrest
        · cases hunknown
      have hleft : leftovers params args = [] := by
        rcases hfits.room with hle | hrest
        · exact List.drop_eq_nil_of_le hle
        · rw [hany] at hrest
          cases hrest
      rw [hunknown, hleft]
      rfl

/-- The places hold the arguments, each of them once. -/
theorem Matched.values_placesOf (hmatched : Matched params args slots)
    (hfits : Fits params args) (hdistinct : args.Distinct) :
    ((placesOf (suppliedBy slots (restContent params args))).map
      Prod.snd).Perm args.values := by
  have hplaces := values_placesOf_suppliedBy slots (restContent params args)
  rw [hmatched.declared, hfits.rest_values hdistinct] at hplaces
  have hheld := hmatched.held.append_left
    ((unknownArgs params args.entries).map Prod.snd)
  have hargs := perm_values params args.entries
  refine hplaces.trans ((List.perm_append_comm_assoc _ _ _).trans ?_)
  exact hheld.trans ((List.perm_append_comm_assoc _ _ _).trans hargs.symm)

end Values

section Calls

variable {World : Type} {machine ready : Machine World} {number : Nat}
  {captured : Chain} {supplied : List (String × Supplied)} {callee : Link}
  {program : Program} {place : ArgumentPlace} {value : Value}

/-- All places are filled when the frame of a call is made, and a place is
spared when its parameter is. -/
theorem Machine.Ready.shows
    (hready : machine.Ready number captured supplied callee ready)
    (hprogram : machine.programs[number]? = some program)
    (hdistinct : ∀ entry ∈ supplied, entry.2.Distinct)
    (hplace : (place, value) ∈ placesOf supplied) :
    place.Shows ready.heap callee.frame value ∧
      ∀ {after : Machine World},
        Spared program (.badge place.param) ready after →
          place.Shows after.heap callee.frame value := by
  obtain ⟨⟨param, given⟩, hgiven, hmem⟩ := List.mem_flatMap.mp hplace
  have hparam : place.param = param := Supplied.param_of_mem_places hmem
  obtain ⟨held, hheld, hshown⟩ := hready.holds param given hgiven
  have hown := hdistinct (param, given) hgiven
  refine ⟨hshown.shows hown hheld hmem, fun hspared => ?_⟩
  have hrunning : ready.programs[ready.program]? = some program := by
    rw [hready.programs, hready.program, hprogram]
  obtain ⟨hkept, hsame⟩ :=
    hspared hrunning callee captured hready.env hready.made
  rw [hparam, hheld] at hsame
  exact (hshown.kept hkept.frames (Nat.le_of_lt hready.made)).shows hown hsame
    hmem

end Calls

/-- Arguments that fit are kept.  They have places of their own, at the
parameters and in the array of the rest parameter.  All of these are filled
before the defaults are evaluated, and each of them keeps its argument then,
unless an assignment to its parameter is part of one of the defaults. -/
theorem arguments_kept_unless_assigned {World : Type}
    (natives : Natives World) {function : String} {params : List Param}
    {args : Container Value} {bindings : Bindings} (hdistinct : args.Distinct)
    (hnames : (params.map Param.name).Nodup)
    (hbind : bindArguments function params args = .ok bindings) :
    let places := placesOf bindings.supplied
    (places.map Prod.fst).Nodup ∧
      (places.map Prod.snd).Perm args.values ∧
      (∀ entry ∈ places, ∃ param ∈ params, entry.1.BelongsTo param) ∧
      ∀ (depth : Nat) (name : String) (number : Nat) (definition : FuncId)
        (captured : Chain) (machine : Machine World) (program : Program)
        (func : FuncDef),
        functionLabel name = function →
        machine.programs[number]? = some program →
        program.func? definition = some func →
        program.params? func.params = some params →
          let worker := evaluate natives depth
          ∃ callee ready,
            machine.Ready number captured bindings.supplied callee ready ∧
            worker.callScript name number definition captured args machine =
              machine.leave ((worker.defaults bindings.defaults >>= fun _ =>
                Run.catchReturn (worker.stmts func.body.stmts)) ready) ∧
            ∀ place value, (place, value) ∈ places →
              place.Shows ready.heap callee.frame value ∧
              ((∀ entry ∈ bindings.defaults,
                  ¬ program.Assigns (.badge place.param) entry.2) →
                place.Shows
                  (worker.defaults bindings.defaults ready).2.heap callee.frame
                  value) := by
  rcases bindArguments_cases function params hdistinct with
    ⟨slots, hfits, hmatched, hok⟩ | ⟨-, issue, herror⟩
  · cases hok.symm.trans hbind
    have hforms : ∀ entry ∈ suppliedBy slots (restContent params args), _ :=
      fun entry hentry =>
        exists_of_mem_suppliedBy (distinct_restContent params args) hentry
    rw [hmatched.declared] at hforms
    have hown : ∀ entry ∈ suppliedBy slots (restContent params args),
        entry.2.Distinct :=
      fun entry hentry => (hforms entry hentry).1
    have hcomplete := hfits.complete
    rw [← hmatched.waiting] at hcomplete
    have hboth := (names_suppliedBy_defaultsOf (restContent params args)
      hcomplete).nodup_iff.mpr (hmatched.declared.symm ▸ hnames)
    obtain ⟨hsupplied, -, hapart⟩ := List.nodup_append.mp hboth
    refine ⟨nodup_placesOf hsupplied hown,
      hmatched.values_placesOf hfits hdistinct, ?_, ?_⟩
    · intro entry hentry
      obtain ⟨⟨name, given⟩, hgiven, hmem⟩ := List.mem_flatMap.mp hentry
      obtain ⟨-, param, hparam, rfl, hrest⟩ := hforms _ hgiven
      exact ⟨param, hparam, Supplied.belongsTo_of_mem_places hrest hmem⟩
    · intro depth name number definition captured machine program func hlabel
        hprogram hfunc hparams worker
      obtain ⟨callee, ready, hready, hcall⟩ :=
        worker.callScript_ready captured hprogram hfunc hparams
          (hlabel ▸ hok) hsupplied
      refine ⟨callee, ready, hready, hcall, fun place value hplace => ?_⟩
      obtain ⟨hfilled, hspared⟩ := hready.shows hprogram hown hplace
      refine ⟨hfilled, fun hunassigned => hspared ?_⟩
      obtain ⟨source, hsource, hmem⟩ := List.mem_flatMap.mp hplace
      have hparam : place.param = source.1 := Supplied.param_of_mem_places hmem
      refine Worker.spared_defaults
        (evaluate_spares natives program (.badge place.param) depth)
        (fun entry hentry => ⟨fun heq => ?_, hunassigned entry hentry⟩) ready
      have hsame : source.1 = entry.1 := hparam.symm.trans (Key.badge.inj heq)
      exact hapart _ (List.mem_map_of_mem hsource) _
        (List.mem_map_of_mem hentry) hsame
  · cases herror.symm.trans hbind

/-- Neither of the defaults in the way of these arguments assigns anything. -/
theorem arguments_kept_unless_assigned_defaults_between :
    let args := .ofPairs
      [(.badge "c", .int 3), (.index 7, .int 10), (.badge "z", .int 9)]
    let machine : Machine Unit := .start .empty #[fiveParams] 0 .empty 5 ()
    let worker := evaluate Host.silent.natives 3
    ∃ bindings callee ready,
      bindArguments "f" fiveParams.params.toList args = .ok bindings ∧
        placesOf bindings.supplied =
          [(.own "a", .int 10), (.inRest "more" (.badge "z"), .int 9),
            (.own "c", .int 3)] ∧
        machine.Ready 0 [] bindings.supplied callee ready ∧
        ∀ place value, (place, value) ∈ placesOf bindings.supplied →
          place.Shows (worker.defaults bindings.defaults ready).2.heap
            callee.frame value := by
  intro args machine worker
  let params := fiveParams.params.toList
  let bindings : Bindings :=
    ⟨[("a", .value (.int 10)),
      ("more", .rest (.ofPairs [(.badge "z", .int 9)])),
      ("c", .value (.int 3))], [("b", ⟨0, 0⟩), ("d", ⟨0, 1⟩)]⟩
  have hbind : bindArguments "f" params args = .ok bindings := by
    decide +kernel
  have hdistinct : args.Distinct := by decide +kernel
  have hnames : (params.map Param.name).Nodup := by decide +kernel
  have hlabel : functionLabel "f" = "f" := by decide +kernel
  have hprogram : machine.programs[0]? = some fiveParams := by decide +kernel
  have hparams : fiveParams.params? ⟨0, 0, 5⟩ = some params := by
    decide +kernel
  have hunassigned : ∀ key id, ¬ fiveParams.Assigns key id := by
    intro key id hassigns
    induction hassigns with
    | @here id value span row =>
        rw [Program.expr?, Ref.row?] at row
        split at row
        · have hmem := Array.mem_of_getElem? row
          simp [fiveParams] at hmem
        · cases row
    | inside _ _ ih => exact ih
  obtain ⟨-, -, -, hcall⟩ := arguments_kept_unless_assigned
    Host.silent.natives hdistinct hnames hbind
  obtain ⟨callee, ready, hready, -, hkept⟩ := hcall 3 "f" 0 ⟨0, 0⟩ [] machine
    fiveParams ⟨"f", ⟨0, 0, 5⟩, ⟨⟨0, 0, 0⟩, .origin⟩, .origin⟩ hlabel hprogram
    (by decide +kernel) hparams
  refine ⟨bindings, callee, ready, hbind, by decide +kernel, hready, ?_⟩
  exact fun place value hplace => (hkept place value hplace).2
    fun _ _ => hunassigned _ _

/-- A frame without a value and without arrays shows the value nowhere. -/
theorem ArgumentPlace.not_shows {heap : Heap} {callee : FrameId} {value : Value}
    (hvalues : ∀ held ∈ (heap.frame callee).values,
      held ≠ value ∧ held.chain? = none) (place : ArgumentPlace) :
    ¬ place.Shows heap callee value := by
  have hall : (heap.frame callee).All fun held =>
      held ≠ value ∧ held.chain? = none :=
    fun entry hentry => hvalues entry.2 (List.mem_map_of_mem hentry)
  cases place with
  | own param => exact fun hshows => (hall.get? hshows).1 rfl
  | inRest param key =>
      rintro ⟨chain, harray, -⟩
      cases (hall.get? harray).2

/-- A function of a program loses an argument: it can be called with it, but
no place of the frame shows it any more when the defaults are evaluated. -/
def Program.LosesArgument (program : Program) (definition : FuncId)
    (args : Container Value) (value : Value) : Prop :=
  value ∈ args.values ∧ ∃ func params bindings callee ready,
    program.func? definition = some func ∧
      program.params? func.params = some params ∧
      bindArguments func.name params args = .ok bindings ∧
      (Machine.start .empty #[program] 0 .empty 5 () : Machine Unit).Ready 0 []
        bindings.supplied callee ready ∧
      let ended :=
        (evaluate Host.silent.natives 5).defaults bindings.defaults ready
      ended.1 = .ok () ∧
        ∀ place : ArgumentPlace, ¬ place.Shows ended.2.heap callee.frame value

/-- Two functions that can be called with one argument.  The default of `y`
assigns the parameter `x` of `f`, and the two parameters of `g` share a
name. -/
def overwritingText : String :=
  "func f(x, y = x = 7) \x7b\x7d\nfunc g(x, x = 5) \x7b\x7d"

def overwritingScript : ParsedScript where
  program :=
    { number := 0
      exprs := #[⟨.ident "x", ⟨14, 15⟩⟩, ⟨.int 7, ⟨18, 19⟩⟩,
        ⟨.assign (.badge "x") ⟨0, 1⟩, ⟨14, 19⟩⟩, ⟨.int 5, ⟨38, 39⟩⟩]
      stmts := #[⟨.funcBlock "f" ⟨0, 0⟩, ⟨0, 23⟩⟩,
        ⟨.funcBlock "g" ⟨0, 1⟩, ⟨24, 43⟩⟩]
      stmtLists := #[⟨0, 0⟩, ⟨0, 1⟩]
      params := #[⟨"x", none, false, ⟨7, 8⟩⟩,
        ⟨"y", some ⟨0, 2⟩, false, ⟨10, 19⟩⟩, ⟨"x", none, false, ⟨31, 32⟩⟩,
        ⟨"x", some ⟨0, 3⟩, false, ⟨34, 39⟩⟩]
      funcs := #[⟨"f", ⟨0, 0, 2⟩, ⟨⟨0, 0, 0⟩, ⟨21, 23⟩⟩, ⟨0, 23⟩⟩,
        ⟨"g", ⟨0, 2, 2⟩, ⟨⟨0, 0, 0⟩, ⟨41, 43⟩⟩, ⟨24, 43⟩⟩] }
  script := ⟨⟨0, 0, 2⟩, ⟨0, 43⟩⟩

/-- Both functions lose the argument `1`: the first one has `7` in its place
then, the second one `5`. -/
theorem arguments_overwritten :
    parseText 0 overwritingText = .ok overwritingScript ∧
      overwritingScript.program.LosesArgument ⟨0, 0⟩ (.ofValues [.int 1])
        (.int 1) ∧
      overwritingScript.program.LosesArgument ⟨0, 1⟩ (.ofValues [.int 1])
        (.int 1) := by
  let machine : Machine Unit :=
    .start .empty #[overwritingScript.program] 0 .empty 5 ()
  let filled : Container Value := Container.empty.set (.badge "x") (.int 1)
  have hholds : Holds .empty [("x", .value (.int 1))] machine.heap filled
      machine.heap :=
    .cons (.refl _) rfl (.nil _ _)
  have hready := hholds.ready (List.pairwise_singleton _ _) 0 []
  refine ⟨by decide +kernel, ⟨by decide +kernel, ?_⟩, ⟨by decide +kernel, ?_⟩⟩
  · refine ⟨_,
      [⟨"x", none, false, ⟨7, 8⟩⟩, ⟨"y", some ⟨0, 2⟩, false, ⟨10, 19⟩⟩],
      ⟨[("x", .value (.int 1))], [("y", ⟨0, 2⟩)]⟩, _, _, rfl,
      by decide +kernel, by decide +kernel, hready, by decide +kernel, ?_⟩
    exact ArgumentPlace.not_shows (by decide +kernel)
  · refine ⟨_,
      [⟨"x", none, false, ⟨31, 32⟩⟩, ⟨"x", some ⟨0, 3⟩, false, ⟨34, 39⟩⟩],
      ⟨[("x", .value (.int 1))], [("x", ⟨0, 3⟩)]⟩, _, _, rfl,
      by decide +kernel, by decide +kernel, hready, by decide +kernel, ?_⟩
    exact ArgumentPlace.not_shows (by decide +kernel)

end ChainScript
