import ChainScript.Proofs.ArgumentMatching
import ChainScript.Proofs.FrameIsolation

/-
The frame that a call runs in.

A call of a function of a program makes a frame for itself.  What the arguments
supply is in it before anything is evaluated.  The defaults follow, one by one,
each of them bound before the next one is evaluated, and only then does the
body run.
-/

namespace ChainScript

open Step Machine

variable {World : Type}

/-- What the frame of a call holds for a parameter: the value that is supplied,
or an array of one frame, older than that of the call, which holds the entries
that are supplied. -/
def Supplied.ShownAs (heap : Heap) (callee : FrameId) :
    Supplied → Value → Prop
  | .value given, held => held = given
  | .rest entries, held =>
      ∃ link : Link, held = .array [link] ∧ link.frame < callee ∧
        heap.frame link.frame = entries

/-- Nothing but the frame of a call can change, and other frames still show
what was supplied. -/
theorem Supplied.ShownAs.kept {heap after : Heap} {callee : FrameId}
    {given : Supplied} {held : Value}
    (hshown : given.ShownAs heap callee held)
    (hkept : heap.KeptBut (some callee) after)
    (hle : callee ≤ heap.frames.size) : given.ShownAs after callee held := by
  cases given with
  | value given => exact hshown
  | rest entries =>
      obtain ⟨link, hheld, holder, hframe⟩ := hshown
      have hother : some callee ≠ some link.frame := fun heq =>
        Nat.ne_of_gt holder (Option.some.inj heq)
      refine ⟨link, hheld, holder, ?_⟩
      rw [hkept.frame_eq link.frame (Nat.lt_of_lt_of_le holder hle) hother,
        hframe]

/-- New frames change nothing either. -/
theorem Supplied.ShownAs.later {heap after : Heap} {given : Supplied}
    {held : Value} (hshown : given.ShownAs heap heap.frames.size held)
    (hkept : heap.KeptBut none after) :
    given.ShownAs after after.frames.size held := by
  cases given with
  | value given => exact hshown
  | rest entries =>
      obtain ⟨link, hheld, holder, hframe⟩ := hshown
      refine ⟨link, hheld, Nat.lt_of_lt_of_le holder hkept.size_le, ?_⟩
      rw [hkept.frame_eq link.frame holder nofun, hframe]

/-- A frame that parameters were added to. -/
structure Holds (content : Container Value)
    (supplied : List (String × Supplied)) (before : Heap)
    (filled : Container Value) (after : Heap) : Prop where
  kept : before.KeptBut none after
  shown : (supplied.map Prod.fst).Nodup →
    ∀ name given, (name, given) ∈ supplied →
      ∃ value, filled.get? (.badge name) = some value ∧
        given.ShownAs after after.frames.size value
  others : ∀ key, (∀ entry ∈ supplied, key ≠ .badge entry.1) →
    filled.get? key = content.get? key

theorem Holds.nil (content : Container Value) (heap : Heap) :
    Holds content [] heap content heap where
  kept := .refl heap
  shown := fun _ _ _ hentry => absurd hentry List.not_mem_nil
  others := fun _ _ => rfl

theorem Holds.cons {content filled : Container Value} {name : String}
    {given : Supplied} {rest : List (String × Supplied)}
    {before made after : Heap} {value : Value}
    (hmade : before.KeptBut none made)
    (hshown : given.ShownAs made made.frames.size value)
    (hholds : Holds (content.set (.badge name) value) rest made filled after) :
    Holds content ((name, given) :: rest) before filled after where
  kept := hmade.trans hholds.kept
  shown := by
    intro hnodup other supplied hsupplied
    rw [List.map_cons, List.nodup_cons] at hnodup
    rcases List.mem_cons.mp hsupplied with hfirst | hmore
    · obtain ⟨rfl, rfl⟩ := Prod.mk.inj hfirst
      have hnew : ∀ entry ∈ rest, Key.badge other ≠ .badge entry.1 := by
        intro entry hentry heq
        cases heq
        exact hnodup.1 (List.mem_map.mpr ⟨entry, hentry, rfl⟩)
      refine ⟨value, ?_, hshown.later hholds.kept⟩
      rw [hholds.others _ hnew, Container.get?_set_self]
    · exact hholds.shown hnodup.2 other supplied hmore
  others := by
    intro key hother
    rw [hholds.others key fun entry hentry =>
      hother entry (List.mem_cons_of_mem _ hentry)]
    exact Container.get?_set_of_ne _ _ (hother _ List.mem_cons_self)

/-- The frame of a call is made without running any code. -/
theorem Worker.callFrame_holds (content : Container Value)
    (supplied : List (String × Supplied)) (machine : Machine World) :
    ∃ filled heap,
      callFrame content supplied machine = (.ok filled, { machine with heap }) ∧
        Holds content supplied machine.heap filled heap := by
  induction supplied generalizing content machine with
  | nil => exact ⟨content, machine.heap, rfl, .nil content machine.heap⟩
  | cons entry rest ih =>
      obtain ⟨name, given | entries⟩ := entry
      · obtain ⟨filled, heap, hends, hholds⟩ :=
          ih (content.set (.badge name) given) machine
        have hshown : (Supplied.value given).ShownAs machine.heap
            machine.heap.frames.size given :=
          rfl
        exact ⟨filled, heap, hends, hholds.cons (.refl _) hshown⟩
      · let made := (machine.heap.addArray entries).2
        obtain ⟨filled, heap, hends, hholds⟩ :=
          ih (content.set (.badge name) (machine.heap.addArray entries).1)
            { machine with heap := made }
        refine ⟨filled, heap, hends,
          hholds.cons (machine.heap.keptBut_addArray entries) ?_⟩
        have hlt : machine.heap.frames.size < made.frames.size := by
          simp [made, Heap.addArray, Heap.pushNew, Heap.push, Heap.addFrame]
        exact ⟨_, rfl, hlt, machine.heap.frame_addFrame_self entries⟩

/-- The machine that a call of a function of a program has made ready: it runs
the program of the function, in a new frame on top of what the function
captured, and the frame holds what is supplied and nothing else. -/
structure Machine.Ready (machine : Machine World) (number : Nat)
    (captured : Chain) (supplied : List (String × Supplied)) (callee : Link)
    (ready : Machine World) : Prop where
  env : ready.env = callee :: captured
  program : ready.program = number
  programs : ready.programs = machine.programs
  calls : ready.calls = machine.calls
  world : ready.world = machine.world
  kept : machine.heap.KeptBut none ready.heap
  fresh : machine.heap.frames.size ≤ callee.frame
  made : callee.frame < ready.heap.frames.size
  holds : ∀ name given, (name, given) ∈ supplied →
    ∃ value, (ready.heap.frame callee.frame).get? (.badge name) = some value ∧
      given.ShownAs ready.heap callee.frame value
  others : ∀ key, (∀ entry ∈ supplied, key ≠ .badge entry.1) →
    (ready.heap.frame callee.frame).get? key = none

/-- Enter a program in a new frame on top of a scope. -/
def Machine.enter (machine : Machine World) (number : Nat) (captured : Chain)
    (content : Container Value) : Machine World :=
  { machine with
    heap := (machine.heap.pushNew content captured).2
    env := (machine.heap.pushNew content captured).1
    program := number }

/-- A new frame makes a machine ready if it holds what is supplied. -/
theorem Holds.ready {machine : Machine World} {heap : Heap}
    {supplied : List (String × Supplied)} {filled : Container Value}
    (hholds : Holds .empty supplied machine.heap filled heap)
    (hnodup : (supplied.map Prod.fst).Nodup) (number : Nat)
    (captured : Chain) :
    machine.Ready number captured supplied ⟨heap.nextLink, heap.frames.size⟩
      ({ machine with heap }.enter number captured filled) := by
  have hpush := heap.keptBut_pushNew filled captured
  have hnew :
      (heap.pushNew filled captured).2.frame heap.frames.size = filled :=
    heap.frame_addFrame_self filled
  have hmade : heap.frames.size <
      (heap.pushNew filled captured).2.frames.size := by
    simp [Heap.pushNew, Heap.push, Heap.addFrame]
  refine ⟨rfl, rfl, rfl, rfl, rfl, hholds.kept.trans hpush,
    hholds.kept.size_le, hmade, ?_, ?_⟩
  · intro other given hgiven
    obtain ⟨value, hvalue, hshown⟩ := hholds.shown hnodup other given hgiven
    refine ⟨value, ?_, hshown.kept hpush.of_none (Nat.le_refl _)⟩
    exact (congrArg (Container.get? · _) hnew).trans hvalue
  · intro key hother
    refine (congrArg (Container.get? · key) hnew).trans ?_
    rw [hholds.others key hother, Container.get?_empty]

/-- Give back the scope and the program from before. -/
def Machine.leave {α : Type} (machine : Machine World)
    (result : Outcome Exit α × Machine World) :
    Outcome Exit α × Machine World :=
  (result.1,
    { result.2 with env := machine.env, program := machine.program })

namespace Worker

variable (worker : Worker World)

/-- Defaults are evaluated in turn, in one scope.  Each one is evaluated once,
and its value is bound in the innermost frame before the next one is evaluated.
One that ends without a value is the last one. -/
inductive InTurn (callee : Link) (captured : Chain) :
    List (String × ExprId) → Machine World → Outcome Exit Unit →
      Machine World → Prop
  | done (machine : Machine World) :
      InTurn callee captured [] machine (.ok ()) machine
  | bound {name : String} {default : ExprId} {rest : List (String × ExprId)}
      {machine after last : Machine World} {value : Value}
      {outcome : Outcome Exit Unit} (scope : machine.env = callee :: captured)
      (evaluated : worker.expr default machine = (.ok value, after))
      (next : InTurn callee captured rest
        { after with
          heap := after.heap.setInFrame callee.frame (.badge name) value }
        outcome last) :
      InTurn callee captured ((name, default) :: rest) machine outcome last
  | failed {name : String} {default : ExprId} {rest : List (String × ExprId)}
      {machine after : Machine World} {exit : Exit}
      (scope : machine.env = callee :: captured)
      (evaluated : worker.expr default machine = (.error exit, after)) :
      InTurn callee captured ((name, default) :: rest) machine (.error exit)
        after
  | halted {name : String} {default : ExprId} {rest : List (String × ExprId)}
      {machine after : Machine World} {halt : Halt}
      (scope : machine.env = callee :: captured)
      (evaluated : worker.expr default machine = (.halted halt, after)) :
      InTurn callee captured ((name, default) :: rest) machine (.halted halt)
        after

variable {worker} {rel : World → World → Prop}
  {callee : Link} {captured : Chain}

/-- Expressions leave the scope as they find it, so that all defaults are
evaluated in the scope of the call. -/
theorem defaults_inTurn (hworker : worker.Isolating rel)
    (unbound : List (String × ExprId)) {machine : Machine World}
    (hscope : machine.env = callee :: captured) :
    InTurn worker callee captured unbound machine
      (worker.defaults unbound machine).1
      (worker.defaults unbound machine).2 := by
  induction unbound generalizing machine with
  | nil => exact .done machine
  | cons first rest ih =>
      obtain ⟨name, default⟩ := first
      have hkept := hworker.expr default machine (hscope ▸ List.cons_ne_nil _ _)
      rw [defaults, bind_apply]
      cases heval : worker.expr default machine with
      | mk outcome after =>
          cases outcome with
          | error exit => exact .failed hscope heval
          | halted halt => exact .halted hscope heval
          | ok value =>
              have henv : after.env = callee :: captured := by
                have hsame := hkept.restored.env
                rw [show worker (.expr default) machine = _ from heval] at hsame
                exact hsame.trans hscope
              have hbind :
                  (Run.bind (.badge name) value : Run World Unit) after =
                    (.ok (), { after with
                      heap := after.heap.setInFrame callee.frame
                        (.badge name) value }) := by
                obtain ⟨heap, programs, number, env, calls, world⟩ := after
                cases henv
                rfl
              dsimp only
              rw [bind_apply, hbind]
              exact .bound hscope heval (ih henv)

/-- A call whose arguments fit makes a frame for them, and then it goes on to
the defaults and the body. -/
theorem callScript_ready (worker : Worker World) {name : String}
    {number : Nat} {definition : FuncId} (captured : Chain)
    {args : Container Value} {machine : Machine World} {program : Program}
    {func : FuncDef} {params : List Param} {bindings : Bindings}
    (hprogram : machine.programs[number]? = some program)
    (hfunc : program.func? definition = some func)
    (hparams : program.params? func.params = some params)
    (hbind : bindArguments (functionLabel name) params args = .ok bindings)
    (hnodup : (bindings.supplied.map Prod.fst).Nodup) :
    ∃ callee ready,
      machine.Ready number captured bindings.supplied callee ready ∧
        worker.callScript name number definition captured args machine =
          machine.leave ((worker.defaults bindings.defaults >>= fun _ =>
            Run.catchReturn (worker.stmts func.body.stmts)) ready) := by
  obtain ⟨filled, heap, hframe, hholds⟩ :=
    callFrame_holds .empty bindings.supplied machine
  refine ⟨_, _, hholds.ready hnodup number captured, ?_⟩
  have hbody : worker.callScript name number definition captured args machine =
      worker.runBody number func captured filled bindings.defaults
        { machine with heap } := by
    simp only [callScript, bind_apply, read_apply, hprogram, hfunc, hparams,
      hbind, Step.found, Outcome.ofOption, ofOutcome_apply, Run.ofExcept,
      pure_apply, hframe]
  rw [hbody]
  rfl

end Worker

/-- What arguments that fit make of the parameters.  A label gives a parameter
its value, and the parameters that are left get the positions in order.  A rest
parameter gets the other labels and then the positions that are left over, and
the parameters that get nothing are left to their defaults. -/
structure Bindings.AsGiven (params : List Param) (args : Container Value)
    (bindings : Bindings) : Prop where
  labelled : ∀ param ∈ params, param.rest = false → ∀ value,
    (.badge param.name, value) ∈ args.entries →
      (param.name, .value value) ∈ bindings.supplied
  positional : ∀ param value,
    (param, value) ∈
      (unlabelled params args).zip (positionals args.entries) →
        (param.name, .value value) ∈ bindings.supplied
  rest : ∀ param ∈ params, param.rest = true →
    ∃ content : Container Value,
      (param.name, .rest content) ∈ bindings.supplied ∧
        content.entries = unknownArgs params args.entries ++
          numberedFrom 0 (leftovers params args)
  defaults : bindings.defaults.map (fun entry => (entry.1, some entry.2)) =
    ((unlabelled params args).drop (positionals args.entries).length).map
      fun param => (param.name, param.default)
  names :
    (bindings.supplied.map Prod.fst ++ bindings.defaults.map Prod.fst).Perm
      (params.map Param.name)

/-- A parameter gets what it is called for, or has a default. -/
theorem Matched.asGiven {params : List Param} {args : Container Value}
    {slots : List Slot} (hdistinct : args.Distinct) (hfits : Fits params args)
    (hmatched : Matched params args slots)
    (honly : params.countP Param.rest ≤ 1) :
    Bindings.AsGiven params args
      ⟨suppliedBy slots (restContent params args),
        defaultsOf (openParams slots)⟩ where
  labelled := by
    intro param hparam hplain value hgiven
    have hnamed : params.any (Param.isNamed param.name) = true :=
      List.any_eq_true.mpr
        ⟨param, hparam, Param.isNamed_iff.mpr ⟨hplain, rfl⟩⟩
    obtain ⟨other, hother, hheld⟩ :=
      hmatched.labelled param.name value hgiven hnamed
    obtain ⟨hrest, hname⟩ := Param.isNamed_iff.mp hother
    exact hname ▸ mem_suppliedBy_of_held hheld hrest
  positional := by
    intro param value hgiven
    have hplain := rest_of_mem_unlabelled (List.of_mem_zip hgiven).1
    exact mem_suppliedBy_of_held (hmatched.positional param value hgiven) hplain
  rest := by
    intro param hparam hrest
    rw [← hmatched.declared] at hparam honly
    exact ⟨restContent params args, mem_suppliedBy_of_rest hparam hrest honly,
      entries_restContent hdistinct⟩
  defaults := by
    rw [hmatched.waiting]
    exact map_defaultsOf hfits.complete
  names := by
    have hcomplete := hfits.complete
    rw [← hmatched.waiting] at hcomplete
    have hnames :=
      names_suppliedBy_defaultsOf (restContent params args) hcomplete
    rw [hmatched.declared] at hnames
    exact hnames

/-- Whether arguments can be bound can be read off them and the parameters, and
so can what each parameter gets.  A call makes a frame that holds all that the
arguments supply, and evaluates the defaults of the other parameters there, in
the order of the parameters and once each, before it runs the body. -/
theorem arguments_bound_as_specified (natives : Natives World)
    (function : String) {params : List Param} {args : Container Value}
    (hdistinct : args.Distinct) (honly : params.countP Param.rest ≤ 1) :
    ((∃ bindings, bindArguments function params args = .ok bindings) ↔
      Fits params args) ∧
    (¬ Fits params args → ∃ issue,
      bindArguments function params args = .error (.arity function issue)) ∧
    ∀ bindings, bindArguments function params args = .ok bindings →
      (params.map Param.name).Nodup →
        bindings.AsGiven params args ∧
        ∀ (depth : Nat) (name : String) (number : Nat) (definition : FuncId)
          (captured : Chain) (machine : Machine World) (program : Program)
          (func : FuncDef),
          functionLabel name = function →
          machine.programs[number]? = some program →
          program.func? definition = some func →
          program.params? func.params = some params →
            let worker := evaluate natives depth
            ∃ callee ready,
              machine.Ready number captured bindings.supplied callee ready ∧
              worker.InTurn callee captured bindings.defaults ready
                (worker.defaults bindings.defaults ready).1
                (worker.defaults bindings.defaults ready).2 ∧
              worker.callScript name number definition captured args machine =
                machine.leave ((worker.defaults bindings.defaults >>= fun _ =>
                  Run.catchReturn (worker.stmts func.body.stmts)) ready) := by
  rcases bindArguments_cases function params hdistinct with
    ⟨slots, hfits, hmatched, hok⟩ | ⟨hfits, issue, herror⟩
  · refine ⟨⟨fun _ => hfits, fun _ => ⟨_, hok⟩⟩, fun hnot => absurd hfits hnot,
      fun bindings hbind hnodup => ?_⟩
    cases hok.symm.trans hbind
    have hgiven := hmatched.asGiven hdistinct hfits honly
    refine ⟨hgiven, fun depth name number definition captured machine program
      func hlabel hprogram hfunc hparams => ?_⟩
    have hboth := hgiven.names.nodup_iff.mpr hnodup
    obtain ⟨callee, ready, hready, hcall⟩ :=
      (evaluate natives depth).callScript_ready captured hprogram hfunc hparams
        (hlabel ▸ hok) (List.nodup_append.mp hboth).1
    have hturn := Worker.defaults_inTurn
      (evaluate_isolating natives.along_anyTwo depth)
      (defaultsOf (openParams slots)) hready.env
    exact ⟨callee, ready, hready, hturn, hcall⟩
  · refine ⟨⟨fun ⟨_, hok⟩ => ?_, fun hyes => absurd hyes hfits⟩,
      fun _ => ⟨issue, herror⟩, fun bindings hok => ?_⟩
    · cases herror.symm.trans hok
    · cases herror.symm.trans hok

/-- A program with a function `f(a, b = 1, ...more, c, d = c) {}`. -/
def fiveParams : Program where
  number := 0
  exprs := #[⟨.int 1, .origin⟩, ⟨.ident "c", .origin⟩]
  params := #[⟨"a", none, false, .origin⟩, ⟨"b", some ⟨0, 0⟩, false, .origin⟩,
    ⟨"more", none, true, .origin⟩, ⟨"c", none, false, .origin⟩,
    ⟨"d", some ⟨0, 1⟩, false, .origin⟩]
  funcs := #[⟨"f", ⟨0, 0, 5⟩, ⟨⟨0, 0, 0⟩, .origin⟩, .origin⟩]

/-- The label `c` comes first and takes its parameter out of the middle, and
the defaults of `b` and `d` are left to be evaluated. -/
theorem arguments_bound_as_specified_defaults_between :
    let args := .ofPairs
      [(.badge "c", .int 3), (.index 7, .int 10), (.badge "z", .int 9)]
    let machine : Machine Unit := .start .empty #[fiveParams] 0 .empty 5 ()
    let worker := evaluate Host.silent.natives 3
    let bindings : Bindings :=
      ⟨[("a", .value (.int 10)),
        ("more", .rest (.ofPairs [(.badge "z", .int 9)])),
        ("c", .value (.int 3))], [("b", ⟨0, 0⟩), ("d", ⟨0, 1⟩)]⟩
    bindArguments "f" fiveParams.params.toList args = .ok bindings ∧
      bindings.AsGiven fiveParams.params.toList args ∧
      ∃ callee ready,
        machine.Ready 0 [] bindings.supplied callee ready ∧
          worker.InTurn callee [] bindings.defaults ready
            (worker.defaults bindings.defaults ready).1
            (worker.defaults bindings.defaults ready).2 ∧
          worker.callScript "f" 0 ⟨0, 0⟩ [] args machine =
            machine.leave ((worker.defaults bindings.defaults >>= fun _ =>
              Run.catchReturn (worker.stmts ⟨0, 0, 0⟩)) ready) := by
  intro args machine worker bindings
  let params := fiveParams.params.toList
  have hbind : bindArguments "f" params args = .ok bindings := by
    decide +kernel
  have hdistinct : args.Distinct := by decide +kernel
  have honly : params.countP Param.rest ≤ 1 := by decide +kernel
  have hnodup : (params.map Param.name).Nodup := by decide +kernel
  have hlabel : functionLabel "f" = "f" := by decide +kernel
  have hprogram : machine.programs[0]? = some fiveParams := by decide +kernel
  have hparams : fiveParams.params? ⟨0, 0, 5⟩ = some params := by
    decide +kernel
  obtain ⟨-, -, hbound⟩ := arguments_bound_as_specified Host.silent.natives "f"
    hdistinct honly
  obtain ⟨hgiven, hcall⟩ := hbound bindings hbind hnodup
  exact ⟨hbind, hgiven, hcall 3 "f" 0 ⟨0, 0⟩ [] machine fiveParams
    ⟨"f", ⟨0, 0, 5⟩, ⟨⟨0, 0, 0⟩, .origin⟩, .origin⟩ hlabel hprogram
    (by decide +kernel) hparams⟩

end ChainScript
