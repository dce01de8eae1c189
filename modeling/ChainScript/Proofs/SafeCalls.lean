import ChainScript.Proofs.SafeStatements

/-
A call is safe, if the host is and if the code of all programs is safe one
call deeper.
-/

namespace ChainScript

open Step Run

variable {World : Type} {custody : Custody World}

/-- The functions of a host are safe wherever they are called from. -/
def Natives.Safe (custody : Custody World) (natives : Natives World) : Prop :=
  ∀ site base name args, base.HoldsAll args →
    Run.Safe custody site base (askHost natives name args) Store.Holds

/-- Programs have their own numbers, and are built row by row. -/
def SoundPrograms (programs : Array Program) : Prop :=
  ∀ (number : Nat) (program : Program), programs[number]? = some program →
    program.number = number ∧ program.Built

namespace Worker

variable {worker : Worker World} {site : Site} {base : Store}

theorem safe_callFrame {content : Container Value}
    (hcontent : base.HoldsAll content) {supplied : List (String × Supplied)}
    (hsupplied : ∀ entry ∈ supplied, entry.2.All base.Holds) :
    Safe custody site base (callFrame content supplied) Store.HoldsAll := by
  induction supplied generalizing base content with
  | nil => exact safe_pure fun _ hmore => hcontent.extends hmore.toExtends
  | cons entry rest ih =>
      have hfirst := hsupplied entry List.mem_cons_self
      have hrest : ∀ entry ∈ rest, entry.2.All base.Holds :=
        fun other hother => hsupplied other (List.mem_cons_of_mem _ hother)
      obtain ⟨name, value | entries⟩ := entry
      · exact ih (Container.All.set hcontent _ hfirst) hrest
      · apply (safe_newArray hfirst).bind
        intro store value hmore hvalue
        apply ih (Container.All.set (hcontent.extends hmore.toExtends) _
          hvalue)
        intro other hother
        have hother' := hrest other hother
        obtain ⟨name, value | entries⟩ := other
        · exact Store.Holds.extends hother' hmore.toExtends
        · exact Store.HoldsAll.extends hother' hmore.toExtends

variable {program : Program}
  (hexprs : worker.ServesExprs custody site program)
  (hstmts : worker.ServesStmts custody site program)

include hexprs

theorem safe_defaults {env : Chain} (hopen : base.Open env)
    {unbound : List (String × ExprId)}
    (hunbound : ∀ entry ∈ unbound, program.HasExpr entry.2) :
    Safe custody (site.inScope env) base (worker.defaults unbound)
      fun _ _ => True := by
  induction unbound generalizing base with
  | nil => exact safe_pure fun _ _ => trivial
  | cons entry rest ih =>
      have hfirst := hexprs env base entry.2 hopen
        (hunbound entry List.mem_cons_self)
      apply hfirst.bind
      intro store value hmore hvalue
      have hopen' : store.Open (site.inScope env).env := hopen.grows hmore
      apply (safe_bindKey hopen' _ hvalue).bind
      intro after _ hafter _
      exact ih (Store.Open.grows hopen' hafter) fun other hother =>
        hunbound other (List.mem_cons_of_mem _ hother)

include hstmts

/-- The body of a function runs in a scope that is open, since its innermost
frame is made for the call. -/
theorem safe_runBody {outer : Nat} {func : FuncDef} {captured : Chain}
    {content : Container Value} {unbound : List (String × ExprId)}
    (hprogram : site.programs[site.program]? = some program)
    (hcaptured : base.Reaches captured) (hcontent : base.HoldsAll content)
    (hunbound : ∀ entry ∈ unbound, program.HasExpr entry.2)
    (hbody : program.HasStmts func.body.stmts) :
    Safe custody { site with program := outer } base
      (worker.runBody site.program func captured content unbound)
      Store.Holds := by
  have hpush : Safe custody { site with program := outer } base
      (withHeap fun heap => heap.pushNew content captured) Store.Open := by
    apply safe_withHeap
    intro store hmore hsound
    exact hsound.pushNew (hcontent.extends hmore.toExtends)
      (hcaptured.extends hmore.toExtends)
  apply hpush.bind
  intro first scope _ hopen
  refine Safe.inProgram (Safe.inChain ?_)
  apply (safe_defaults hexprs hopen hunbound).bind
  intro second _ hsecond _
  exact (safe_stmts hprogram (.refl program) hstmts (hopen.grows hsecond)
    hbody).catchReturn

end Worker

namespace Worker

variable {worker : Worker World} {site : Site} {base : Store}

theorem safe_callScript (hprograms : SoundPrograms site.programs)
    {name : String} {number : Nat} {definition : FuncId} {captured : Chain}
    {args : Container Value}
    (hbody : base.Knows site.programs (.script number definition captured))
    (hargs : base.HoldsAll args)
    (hexprs : ∀ (other : Nat) (program : Program),
      site.programs[other]? = some program →
      worker.ServesExprs custody { site with program := other } program)
    (hstmts : ∀ (other : Nat) (program : Program),
      site.programs[other]? = some program →
      worker.ServesStmts custody { site with program := other } program) :
    Safe custody site base
      (worker.callScript name number definition captured args)
      Store.Holds := by
  obtain ⟨⟨program, hprogram, func, hfunc⟩, hcaptured⟩ := hbody
  have hbuilt := (hprograms number program hprogram).2
  obtain ⟨⟨params, hparams, hdefaults⟩, hstatements⟩ :=
    hbuilt.func_refersInto hfunc
  have hread : Safe custody site base
      (Step.read fun machine => machine.programs[number]?)
      fun _ row => row = some program := by
    apply safe_read
    intro machine store _ hat
    obtain rfl : site = machine.site := hat.site_eq.symm
    exact hprogram
  apply hread.bind
  rintro first _ hfirst rfl
  apply (safe_row rfl).bind
  rintro second _ hsecond rfl
  apply (safe_row hfunc).bind
  rintro third _ hthird rfl
  apply (safe_row hparams).bind
  rintro fourth _ hfourth rfl
  have hlater := hfirst.trans (hsecond.trans (hthird.trans hfourth))
  have hbind : Safe custody site fourth
      (ofExcept (bindArguments (functionLabel name) params args))
      fun store bindings => bindings.From store.Holds params := by
    apply safe_ofExcept (fun _ hfault => bare_bindArguments hfault)
    intro bindings hbindings store hmore
    exact bindArguments_from
      (hargs.extends (hlater.trans hmore).toExtends) hbindings
  apply hbind.bind
  intro fifth bindings hfifth hfrom
  apply (safe_callFrame Container.all_empty hfrom.supplied).bind
  intro sixth content hsixth hcontent
  have hreaches := hcaptured.extends
    (hlater.trans (hfifth.trans hsixth)).toExtends
  refine safe_runBody (hexprs number program hprogram)
    (hstmts number program hprogram) hprogram hreaches hcontent
    (fun entry hentry => ?_) hstatements
  obtain ⟨param, hparam, hdefault⟩ := hfrom.defaults entry hentry
  exact hdefaults param hparam entry.2 hdefault

theorem safe_evalCall {natives : Natives World}
    (hnatives : natives.Safe custody) (hprograms : SoundPrograms site.programs)
    {id : FunctionId} {args : Container Value} (span : Option Span)
    (hid : base.Holds (.function id)) (hargs : base.HoldsAll args)
    (hexprs : ∀ (call : ActiveCall) (calls : CallStack),
      site.calls.push call = .ok calls →
      ∀ (other : Nat) (program : Program),
        site.programs[other]? = some program →
        worker.ServesExprs custody { site with program := other, calls }
          program)
    (hstmts : ∀ (call : ActiveCall) (calls : CallStack),
      site.calls.push call = .ok calls →
      ∀ (other : Nat) (program : Program),
        site.programs[other]? = some program →
        worker.ServesStmts custody { site with program := other, calls }
          program) :
    Safe custody site base (worker.evalCall natives id args span)
      Store.Holds := by
  have hread : Safe custody site base (readHeap fun heap => heap.function? id)
      fun store row => ∃ function, row = some function ∧
        store.HoldsAll function.bound ∧
        store.Knows site.programs function.body := by
    apply safe_readHeap
    intro store hmore hsound
    obtain ⟨function, hfunction⟩ := (hid.extends hmore.toExtends).function?
    exact ⟨function, hfunction, hsound.function hfunction⟩
  apply hread.bind
  rintro first _ hfirst ⟨function, rfl, hbound, hknown⟩
  apply (safe_row rfl).bind
  rintro second _ hsecond rfl
  have hall : second.HoldsAll (function.bound.expand args.entries) :=
    Container.All.expand (hbound.extends hsecond.toExtends)
      (hargs.extends (hfirst.trans hsecond).toExtends)
  apply safe_inCall
  intro calls hpush
  split
  · exact hnatives _ second function.name _ hall
  · next number definition captured hbody =>
      rw [hbody] at hknown
      have hcalled : SoundPrograms ({ site with calls } : Site).programs :=
        hprograms
      exact safe_callScript hcalled (hknown.extends hsecond.toExtends) hall
        (hexprs _ calls hpush) (hstmts _ calls hpush)

end Worker

end ChainScript
