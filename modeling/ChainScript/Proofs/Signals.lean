import ChainScript.Proofs.FrameIsolation
import ChainScript.Proofs.Store
import ChainScript.Proofs.SyntaxTrees

/-
How signals leave code, and where running code is looked up.

Every function in the heap has its definition in the program that it names, and
running code never changes which program that is.  A signal may leave a
statement: `return` any statement, the other two a statement with a loop around
it.  The functions of a host may answer with signals too; these are the odd
ones, and nothing is said about where they end.
-/

namespace ChainScript

open Step

variable {World α β : Type}

/-- The exit is a fault or an allowed signal. -/
def Exit.Within (allowed : Signal → Prop) (exit : Exit) : Prop :=
  ∀ way, exit.reason = .signal way → allowed way

theorem Exit.Within.congr {allowed : Signal → Prop} {exit other : Exit}
    (hexit : exit.Within allowed) (hreason : other.reason = exit.reason) :
    other.Within allowed :=
  fun way hway => hexit way (hreason.symm.trans hway)

/-- The end of a computation that gives an answer is a good result, a fault or
an allowed signal. -/
def Outcome.Within (allowed : Signal → Prop) (Good : α → Prop) :
    Outcome Exit α → Prop
  | .ok value => Good value
  | .error exit => exit.Within allowed
  | .halted _ => True

/-- The signals that may leave a statement. -/
def Signal.Leaves (odd : Signal → Prop) (inLoop : Bool) : Signal → Prop
  | .return _ => True
  | way => odd way ∨ inLoop = true

theorem Signal.leaves_of_odd {odd : Signal → Prop} {inLoop : Bool}
    {way : Signal} (hodd : odd way) : way.Leaves odd inLoop := by
  cases way with
  | «return» => trivial
  | _ => exact .inl hodd

/-- A program is there under its own number, and it has a property. -/
def ProgramIs (programs : Array Program) (number : Nat)
    (form : Program → Prop) : Prop :=
  ∃ program, programs[number]? = some program ∧ program.number = number ∧
    form program

/-- The definition of a script's function is in the program that the function
names, and reads as a function. -/
def FunctionBody.DefinedIn (programs : Array Program) : FunctionBody → Prop
  | .native => True
  | .script number definition _ =>
      ProgramIs programs number fun program =>
        ∃ name, program.ShowsFunc name definition

/-- All functions of the heap have their definitions. -/
def Heap.DefinedIn (programs : Array Program) (heap : Heap) : Prop :=
  ∀ function ∈ heap.functions, function.body.DefinedIn programs

namespace Heap

variable {programs : Array Program} {heap : Heap}

theorem DefinedIn.addFunction (hdefined : heap.DefinedIn programs)
    {function : Function} (hbody : function.body.DefinedIn programs) :
    (heap.addFunction function).2.DefinedIn programs := by
  intro other hother
  rcases Array.mem_push.mp hother with hold | rfl
  · exact hdefined other hold
  · exact hbody

theorem DefinedIn.congr {other : Heap} (hdefined : heap.DefinedIn programs)
    (hsame : other.functions = heap.functions) : other.DefinedIn programs := by
  unfold DefinedIn
  rw [hsame]
  exact hdefined

theorem functions_bind (chain : Chain) (key : Key) (value : Value) :
    (heap.bind chain key value).2.functions = heap.functions := by
  cases chain <;> rfl

/-- A function with more arguments bound has the definition of the function
that it was made of. -/
theorem DefinedIn.compose (hdefined : heap.DefinedIn programs)
    {left right : Value} {made : Value × Heap}
    (hcompose : heap.compose left right = .ok made) :
    made.2.DefinedIn programs := by
  unfold Heap.compose at hcompose
  split at hcompose
  · cases hcompose
    exact hdefined.congr (Store.stack_eq _ _ _).2
  · next id args =>
      cases hcompose
      change (heap.bindFunction id (heap.flatten args)).2.DefinedIn programs
      unfold bindFunction
      split
      · next function hfunction =>
          exact hdefined.addFunction
            (hdefined function (Array.mem_of_getElem? hfunction))
      · exact hdefined
  · cases hcompose

end Heap

/-- What does not change while code runs: the programs and the number of the
running one, and a property of the state of the host. -/
structure Stage (World : Type) where
  programs : Array Program
  number : Nat
  keeps : World → Prop

/-- The machine is at a stage, and its functions have their definitions. -/
structure Machine.In (stage : Stage World) (machine : Machine World) :
    Prop where
  programs : machine.programs = stage.programs
  program : machine.program = stage.number
  defined : machine.heap.DefinedIn stage.programs
  world : stage.keeps machine.world

namespace Run

/-- From a machine at the stage, the computation leads to one at the stage, and
if it gives an answer, it is a good result, a fault or an allowed signal. -/
def Ends (stage : Stage World) (allowed : Signal → Prop) (body : Run World α)
    (Good : α → Prop) : Prop :=
  ∀ machine, machine.In stage →
    (body machine).2.In stage ∧ (body machine).1.Within allowed Good

variable {stage : Stage World} {allowed : Signal → Prop} {body : Run World α}
  {Good : α → Prop} {Then : β → Prop}

theorem ends_pure {value : α} (hgood : Good value) :
    Ends stage allowed (pure value) Good :=
  fun _ hin => ⟨hin, hgood⟩

theorem ends_fail {exit : Exit} (hexit : exit.Within allowed) :
    Ends stage allowed (Step.fail exit) Good :=
  fun _ hin => ⟨hin, hexit⟩

theorem ends_halt (reason : Halt) :
    Ends stage allowed (Step.halt reason) Good :=
  fun _ hin => ⟨hin, trivial⟩

theorem ends_fault (cause : Cause) : Ends stage allowed (fault cause) Good :=
  ends_fail fun _ hreason => nomatch hreason

theorem ends_faultAt (span : Span) (cause : Cause) :
    Ends stage allowed (faultAt span cause) Good :=
  ends_fail fun _ hreason => nomatch hreason

theorem ends_signal {way : Signal} (hallowed : allowed way) :
    Ends stage allowed (signal way) Good := by
  apply ends_fail
  rintro _ ⟨⟩
  exact hallowed

theorem Ends.bind {first : Run World α} {next : α → Run World β}
    (hfirst : Ends stage allowed first Good)
    (hnext : ∀ value, Good value → Ends stage allowed (next value) Then) :
    Ends stage allowed (first >>= next) Then := by
  intro machine hin
  obtain ⟨hmiddle, hgood⟩ := hfirst machine hin
  rw [bind_apply]
  rcases hend : first machine with ⟨outcome, middle⟩
  rw [hend] at hmiddle hgood
  cases outcome with
  | ok value => exact hnext value hgood middle hmiddle
  | error exit => exact ⟨hmiddle, hgood⟩
  | halted reason => exact ⟨hmiddle, trivial⟩

theorem Ends.mono {more : Signal → Prop} {Better : α → Prop}
    (hbody : Ends stage allowed body Good)
    (hmore : ∀ way, allowed way → more way)
    (hbetter : ∀ value, Good value → Better value) :
    Ends stage more body Better := by
  intro machine hin
  obtain ⟨hafter, hend⟩ := hbody machine hin
  refine ⟨hafter, ?_⟩
  generalize body machine = result at hafter hend ⊢
  rcases result with ⟨_ | exit | _, after⟩
  · exact hbetter _ hend
  · exact fun way hreason => hmore way (hend way hreason)
  · trivial

theorem ends_read {f : Machine World → α}
    (hgood : ∀ machine, machine.In stage → Good (f machine)) :
    Ends stage allowed (Step.read f) Good :=
  fun machine hin => ⟨hin, hgood machine hin⟩

theorem ends_readHeap (f : Heap → α) :
    Ends stage allowed (readHeap f) fun _ => True :=
  ends_read fun _ _ => trivial

theorem ends_withHeap {f : Heap → α × Heap}
    (hdefined : ∀ heap : Heap, heap.DefinedIn stage.programs →
      (f heap).2.DefinedIn stage.programs) :
    Ends stage allowed (withHeap f) fun _ => True :=
  fun machine hin =>
    ⟨⟨hin.programs, hin.program, hdefined machine.heap hin.defined, hin.world⟩,
      trivial⟩

/-- A row that is there. -/
theorem ends_row {row : Option α} {value : α} (hrow : row = some value) :
    Ends stage allowed (Step.found row) (value = ·) := by
  subst hrow
  exact ends_pure rfl

theorem ends_found (row : Option α) :
    Ends stage allowed (Step.found row) (row = some ·) := by
  cases row with
  | some value => exact ends_pure rfl
  | none => exact ends_halt _

/-- The program whose code runs. -/
theorem ends_program {running : Program}
    (hprogram : stage.programs[stage.number]? = some running) :
    Ends stage allowed program (running = ·) := by
  have hread : Ends stage allowed
      (Step.read fun machine => machine.programs[machine.program]?)
      (· = some running) := by
    apply ends_read
    intro machine hin
    rw [hin.programs, hin.program, hprogram]
  exact hread.bind fun _ hrow => ends_row hrow

theorem ends_ofExcept (result : Except Cause α) :
    Ends stage allowed (ofExcept result) fun _ => True := by
  cases result with
  | ok value => exact ends_pure trivial
  | error cause => exact ends_fault cause

theorem ends_ofOutcome (outcome : Outcome Cause α) :
    Ends stage allowed (Run.ofOutcome outcome) fun _ => True := by
  cases outcome with
  | ok value => exact ends_pure trivial
  | error cause => exact ends_fault cause
  | halted reason => exact ends_halt reason

theorem ends_lookup (key : Key) :
    Ends stage allowed (lookup key) fun _ => True := by
  have hread : Ends stage allowed (lookup? key) fun _ => True :=
    ends_read fun _ _ => trivial
  apply hread.bind
  intro found _
  cases found with
  | some value => exact ends_pure trivial
  | none => exact ends_fault _

theorem ends_textOf (value : Value) :
    Ends stage allowed (textOf value) fun _ => True := by
  apply (ends_readHeap _).bind
  intro text _
  cases text with
  | some text => exact ends_pure trivial
  | none => exact ends_halt _

theorem ends_bind (key : Key) (value : Value) :
    Ends stage allowed (Run.bind key value) fun _ => True := by
  intro machine hin
  refine ⟨⟨hin.programs, hin.program, ?_, hin.world⟩, trivial⟩
  exact hin.defined.congr (Heap.functions_bind machine.env key value)

theorem ends_newArray (content : Container Value) :
    Ends stage allowed (newArray content) fun _ => True :=
  ends_withHeap fun _ hdefined => hdefined.congr rfl

theorem ends_newNative (name : String) :
    Ends stage allowed (newNative name) fun _ => True :=
  ends_withHeap fun _ hdefined => hdefined.addFunction trivial

/-- A function that is made by a definition of the running program. -/
theorem ends_newClosure (name : String) {definition : FuncId}
    (hbody : ProgramIs stage.programs stage.number fun program =>
      ∃ name, program.ShowsFunc name definition) :
    Ends stage allowed (newClosure name definition) fun _ => True := by
  intro machine hin
  refine ⟨⟨hin.programs, hin.program, hin.defined.addFunction ?_, hin.world⟩,
    trivial⟩
  change ProgramIs stage.programs machine.program _
  rwa [hin.program]

theorem ends_compose (left right : Value) :
    Ends stage allowed (Run.compose left right) fun _ => True := by
  intro machine hin
  unfold Run.compose
  rw [bind_apply]
  simp only [readHeap, read_apply]
  cases hcompose : machine.heap.compose left right with
  | ok made =>
      exact ⟨⟨hin.programs, hin.program, hin.defined.compose hcompose,
        hin.world⟩, trivial⟩
  | error cause => exact ⟨hin, trivial⟩

theorem in_carryOut (reply : Reply World) {machine : Machine World}
    (hreply : reply.LeavesIn stage.keeps) (hin : machine.In stage) :
    (carryOut reply machine).2.In stage := by
  induction reply generalizing machine with
  | answer result world =>
      cases result <;> exact ⟨hin.programs, hin.program, hin.defined, hreply⟩
  | array content next ih =>
      have hmade : Ends stage (fun _ => True) (newArray content) fun _ => True :=
        ends_newArray content
      exact ih _ (hreply _) (hmade machine hin).1
  | compose left right next ih =>
      have hmade : Ends stage (fun _ => True) (compose left right)
          fun _ => True :=
        ends_compose left right
      have hmiddle := (hmade machine hin).1
      rw [carryOut, bind_apply]
      generalize compose left right machine = result at hmiddle ⊢
      rcases result with ⟨_ | _ | _, middle⟩
      · exact ih _ (hreply _) hmiddle
      · exact hmiddle
      · exact hmiddle
  | native name next ih =>
      have hmade : Ends stage (fun _ => True) (newNative name) fun _ => True :=
        ends_newNative name
      exact ih _ (hreply _) (hmade machine hin).1

/-- What an attempt hands on. -/
def AttemptWithin (allowed : Signal → Prop) (Good : α → Prop) :
    Except Exit α → Prop
  | .ok value => Good value
  | .error exit => exit.Within allowed

/-- An attempt is left with no signal. -/
theorem Ends.attempt {more : Signal → Prop}
    (hbody : Ends stage allowed body Good) :
    Ends stage more (Step.attempt body) (AttemptWithin allowed Good) := by
  intro machine hin
  obtain ⟨hafter, hend⟩ := hbody machine hin
  unfold Step.attempt
  generalize body machine = result at hafter hend ⊢
  rcases result with ⟨_ | exit | _, after⟩
  · exact ⟨hafter, hend⟩
  · exact ⟨hafter, hend⟩
  · exact ⟨hafter, trivial⟩

theorem Ends.located (span : Span) (hbody : Ends stage allowed body Good) :
    Ends stage allowed (located span body) Good := by
  intro machine hin
  obtain ⟨hafter, hend⟩ := hbody machine hin
  unfold Run.located mapError
  generalize body machine = result at hafter hend ⊢
  rcases result with ⟨_ | exit | _, after⟩
  · exact ⟨hafter, hend⟩
  · exact ⟨hafter, Exit.Within.congr hend (exit.reason_orSpan span)⟩
  · exact ⟨hafter, trivial⟩

theorem Ends.noting (hbody : Ends stage allowed body Good) :
    Ends stage allowed (noting body) Good := by
  intro machine hin
  obtain ⟨hafter, hend⟩ := hbody machine hin
  unfold Run.noting
  generalize body machine = result at hafter hend ⊢
  rcases result with ⟨_ | exit | _, after⟩
  · exact ⟨hafter, hend⟩
  · exact ⟨hafter, Exit.Within.congr hend (after.calls.reason_attach exit)⟩
  · exact ⟨hafter, trivial⟩

/-- Where a `return` ends, no signal but the odd ones gets any further. -/
theorem Ends.catchReturn {odd : Signal → Prop} {body : Run World Value}
    (hbody : Ends stage (Signal.Leaves odd false) body fun _ => True) :
    Ends stage odd (catchReturn body) fun _ => True := by
  intro machine hin
  obtain ⟨hafter, hend⟩ := hbody machine hin
  unfold Run.catchReturn
  generalize body machine = result at hafter hend ⊢
  rcases result with ⟨_ | exit | _, after⟩
  · exact ⟨hafter, trivial⟩
  · dsimp only
    split
    · exact ⟨hafter, trivial⟩
    · next hreturn =>
        refine ⟨hafter, fun way hway => ?_⟩
        have hleaves := hend way hway
        cases way with
        | «return» value => exact absurd hway (hreturn value)
        | _ => exact hleaves.resolve_right Bool.false_ne_true
  · exact ⟨hafter, trivial⟩

theorem Ends.inFrame (content : Container Value)
    (hbody : Ends stage allowed body Good) :
    Ends stage allowed (inFrame content body) Good := by
  intro machine hin
  rw [inFrame_apply]
  obtain ⟨hafter, hend⟩ := hbody { machine with
      env := (machine.heap.pushNew content machine.env).1
      heap := (machine.heap.pushNew content machine.env).2 }
    ⟨hin.programs, hin.program, hin.defined.congr rfl, hin.world⟩
  exact ⟨⟨hafter.programs, hafter.program, hafter.defined, hafter.world⟩, hend⟩

theorem Ends.inChain (chain : Chain) (hbody : Ends stage allowed body Good) :
    Ends stage allowed (inChain chain body) Good := by
  intro machine hin
  rw [inChain_apply]
  obtain ⟨hafter, hend⟩ := hbody { machine with env := chain }
    ⟨hin.programs, hin.program, hin.defined, hin.world⟩
  exact ⟨⟨hafter.programs, hafter.program, hafter.defined, hafter.world⟩, hend⟩

/-- Code of another program, after which the program from before runs on. -/
theorem Ends.inProgram {number : Nat}
    (hbody : Ends { stage with number } allowed body Good) :
    Ends stage allowed (inProgram number body) Good := by
  intro machine hin
  rw [inProgram_apply]
  obtain ⟨hafter, hend⟩ := hbody { machine with program := number }
    ⟨hin.programs, rfl, hin.defined, hin.world⟩
  exact ⟨⟨hafter.programs, hin.program, hafter.defined, hafter.world⟩, hend⟩

theorem Ends.inCall (call : ActiveCall) (hbody : Ends stage allowed body Good) :
    Ends stage allowed (inCall call body) Good := by
  intro machine hin
  cases hpush : machine.calls.push call with
  | error cause =>
      rw [inCall_of_error hpush]
      exact ends_fault cause machine hin
  | ok calls =>
      rw [inCall_of_ok hpush]
      obtain ⟨hafter, hend⟩ := hbody.noting { machine with calls }
        ⟨hin.programs, hin.program, hin.defined, hin.world⟩
      exact ⟨⟨hafter.programs, hafter.program, hafter.defined, hafter.world⟩,
        hend⟩

end Run

/-- The functions of a host keep a property of its state, and answer with odd
signals only. -/
structure Natives.Minds (natives : Natives World) (keeps : World → Prop)
    (odd : Signal → Prop) : Prop where
  along : natives.Along fun before after => keeps before → keeps after
  within : ∀ name args machine,
    (Run.askHost natives name args machine).1.Within odd fun _ => True

theorem Reply.LeavesIn.mono {property other : World → Prop}
    {reply : Reply World} (hreply : reply.LeavesIn property)
    (himp : ∀ world, property world → other world) : reply.LeavesIn other := by
  induction reply with
  | answer result world => exact himp world hreply
  | array content next ih => exact fun value => ih value (hreply value)
  | compose left right next ih => exact fun result => ih result (hreply result)
  | native name next ih => exact fun value => ih value (hreply value)

theorem Run.ends_askHost {natives : Natives World} {stage : Stage World}
    {odd : Signal → Prop} (hnatives : natives.Minds stage.keeps odd)
    (name : String) (args : Container Value) :
    Ends stage odd (askHost natives name args) fun _ => True := by
  intro machine hin
  refine ⟨in_carryOut _ ?_ hin, hnatives.within name args machine⟩
  exact (hnatives.along name args machine.heap machine.world).mono
    fun _ hkeeps => hkeeps hin.world

end ChainScript
