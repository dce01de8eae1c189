import ChainScript.Proofs.ParserBuilds
import ChainScript.Proofs.Remembrance

/-
What holds of a session between two requests.

The scopes of all interpreters are open: their innermost frames belong to no
array, although the frames further out may.  Every interpreter has a script of
one of the programs, and all programs were built by the parser.
-/

namespace ChainScript

open Step Run

variable {World : Type} {custody : Custody World}

section Programs

variable {programs : Array Program} {added : Program}

theorem getElem?_push_of_some {number : Nat} {program : Program}
    (hprogram : programs[number]? = some program) :
    (programs.push added)[number]? = some program := by
  obtain ⟨hlt, _⟩ := Array.getElem?_eq_some_iff.mp hprogram
  rw [Array.getElem?_push_lt hlt, ← hprogram, Array.getElem?_eq_getElem hlt]

theorem SoundPrograms.push (hprograms : SoundPrograms programs)
    (hbuilt : added.Built) (hnumber : added.number = programs.size) :
    SoundPrograms (programs.push added) := by
  intro number program hprogram
  rw [Array.getElem?_push] at hprogram
  split at hprogram
  · next hlast =>
      cases hprogram
      exact ⟨hnumber.trans hlast.symm, hbuilt⟩
  · exact hprograms number program hprogram

/-- With one more program, functions still have their definitions. -/
theorem Store.Sound.push {store : Store} (hsound : store.Sound programs) :
    store.Sound (programs.push added) := by
  refine { hsound with functions := fun function hfunction => ?_ }
  obtain ⟨hbound, hbody⟩ := hsound.functions function hfunction
  refine ⟨hbound, ?_⟩
  cases hkind : function.body with
  | native => trivial
  | script number definition captured =>
      rw [hkind] at hbody
      obtain ⟨⟨program, hprogram, hfunc⟩, hcaptured⟩ := hbody
      exact ⟨⟨program, getElem?_push_of_some hprogram, hfunc⟩, hcaptured⟩

end Programs

/-- An interpreter whose scope is open and whose script is there. -/
structure Runner.SoundIn (store : Store) (programs : Array Program)
    (runner : Runner) : Prop where
  env : store.Open runner.env
  script : ∃ program, programs[runner.program]? = some program ∧
    program.HasStmts runner.script.body

theorem Runner.SoundIn.grows {before after : Store}
    {programs : Array Program} {runner : Runner}
    (hrunner : runner.SoundIn before programs) (hgrows : before.Grows after) :
    runner.SoundIn after programs :=
  ⟨hrunner.env.grows hgrows, hrunner.script⟩

/-- The session has the heap of a sound store, and all that it consists of is
held by the store. -/
structure Session.At (custody : Custody World) (store : Store)
    (session : Session World) : Prop where
  heap_eq : session.heap = store.heap
  sound : store.Sound session.programs
  world : custody.Keeps store session.world
  programs : SoundPrograms session.programs
  runners : ∀ runner ∈ session.runners, runner.SoundIn store session.programs
  answers : ∀ value ∈ session.answers, store.Holds value

section Uses

variable {workers : Nat → Worker World}
  (hworkers : ∀ depth, (workers depth).SafeTo custody depth)
  {site : Site} {base : Store} (hprograms : SoundPrograms site.programs)

/-- The depth that is read from the machine is known from the site. -/
theorem safe_depthBound :
    Safe custody site base (Step.read Machine.depthBound) fun _ depth =>
      depth = (site.calls.limit + 2) * (totalSize site.programs + 2) := by
  apply safe_read
  intro machine store _ hat
  obtain rfl : site = machine.site := hat.site_eq.symm
  rfl

include hworkers hprograms

theorem Worker.safe_script {program : Program}
    (hprogram : site.programs[site.program]? = some program)
    (hopen : base.Open site.env) {script : Script}
    (hscript : program.HasStmts script.body) :
    Safe custody site base (Worker.script workers script) Store.Holds := by
  apply safe_depthBound.bind
  intro store depth hmore hdepth
  have hfits := site.callDepth_le
  rw [← hdepth] at hfits
  have hstmts : (workers depth).ServesStmts custody site program := by
    refine (hworkers depth).stmts site program program hprograms hprogram
      (.refl program) (Nat.le_trans ?_ hfits)
    exact Nat.add_le_add_right (size_le_totalSize hprogram) _
  exact (safe_stmts hprogram (.refl program) hstmts (hopen.grows hmore)
    hscript).catchReturn

theorem Worker.safe_value {callee : Value} (hcallee : base.Holds callee)
    {args : Container Value} (hargs : base.HoldsAll args) :
    Safe custody site base (Worker.value workers callee args) Store.Holds := by
  cases callee with
  | function id =>
      apply safe_depthBound.bind
      intro store depth hmore hdepth
      have hfits := site.callDepth_le
      rw [← hdepth] at hfits
      exact (hworkers depth).calls site hprograms
        (Nat.le_of_add_left_le hfits) site.env store id args none
        (hcallee.extends hmore.toExtends) (hargs.extends hmore.toExtends)
  | _ => exact safe_fault rfl

theorem Use.safe_body {program : Program}
    (hprogram : site.programs[site.program]? = some program)
    (hopen : base.Open site.env) {script : Script}
    (hscript : program.HasStmts script.body)
    (hsound : base.Sound site.programs) {supply : Supply}
    (hhonours : base.Honours supply) {given : Value → Prop}
    (hgiven : ∀ value, given value → base.Holds value) {use : Use}
    (huse : use.DrawsOn supply base.heap given) :
    Safe custody site base (use.body workers script) Store.Holds := by
  cases use with
  | run => exact Worker.safe_script hworkers hprograms hprogram hopen hscript
  | call callee args =>
      exact Worker.safe_value hworkers hprograms
        (hhonours.holds hsound hgiven huse.1)
        (hhonours.holdsAll hsound hgiven huse.2)
  | define name value =>
      exact (safe_bindKey hopen _
        (hhonours.holds hsound hgiven huse)).bind
          fun _ _ _ _ => safe_pure fun _ _ => trivial
  | lookup name =>
      apply (safe_lookup? _).bind
      intro store found _ hfound
      apply safe_pure
      intro after hmore
      cases found with
      | none => trivial
      | some value => exact (hfound value rfl).extends hmore.toExtends
  | array content =>
      exact safe_newArray (hhonours.holdsAll hsound hgiven huse)
  | compose left right =>
      exact (safe_compose (hhonours.holds hsound hgiven huse.1)
        (hhonours.holds hsound hgiven huse.2)).bind
          fun _ _ _ hcomposed => safe_composed hcomposed
  | native name => exact safe_newNative name

end Uses

namespace Session

variable {store : Store} {session : Session World}

/-- The session after one more program has been added. -/
theorem At.pushProgram (hat : session.At custody store) {added : Program}
    (hbuilt : added.Built) (hnumber : added.number = session.programs.size) :
    Session.At custody store
      { session with programs := session.programs.push added } where
  heap_eq := hat.heap_eq
  sound := hat.sound.push
  world := hat.world
  programs := hat.programs.push hbuilt hnumber
  runners := fun runner hrunner => by
    obtain ⟨henv, program, hprogram, hscript⟩ := hat.runners runner hrunner
    exact ⟨henv, program, getElem?_push_of_some hprogram, hscript⟩
  answers := hat.answers

/-- A new interpreter has an open scope, which is its own frame. -/
theorem At.addRunner (hat : session.At custody store) {script : Script}
    {number : Nat} {program : Program}
    (hprogram : session.programs[number]? = some program)
    (hscript : program.HasStmts script.body)
    {globals : List (String × Value)}
    (hglobals : ∀ global ∈ globals, store.Holds global.2) (limit : Nat) :
    ∃ after, store.Grows after ∧
      (session.addRunner script number globals limit).At custody after := by
  have hcontent : store.HoldsAll (globalFrame globals) := by
    apply Container.all_ofPairs
    intro pair hpair
    obtain ⟨global, hglobal, rfl⟩ := List.mem_map.mp hpair
    exact hglobals global hglobal
  have hnone : store.Reaches [] :=
    fun _ hframe => absurd hframe List.not_mem_nil
  obtain ⟨after, hheap, hsound, hgrows, hopen⟩ :=
    hat.sound.pushNew hcontent hnone
  refine ⟨after, hgrows, ?_, hsound,
    custody.extends_ hat.world hgrows.toExtends, hat.programs,
    fun runner hrunner => ?_,
    fun value hvalue => (hat.answers value hvalue).extends hgrows.toExtends⟩
  · rw [hheap, ← hat.heap_eq]
    rfl
  · rcases List.mem_append.mp hrunner with hold | hnew
    · exact (hat.runners runner hold).grows hgrows
    · rw [List.mem_singleton.mp hnew, hat.heap_eq]
      exact ⟨hopen, program, hprogram, hscript⟩

/-- An interpreter that has done something safe is the same as before. -/
theorem At.resume (hat : session.At custody store) {number : Nat}
    {runner : Runner} (hrunner : session.runners[number]? = some runner)
    {after : Store} (hgrows : store.Grows after)
    {result : Outcome Exit Value × Machine World}
    (hend : result.2.At custody (session.machine runner).site after)
    (hsafe : result.1.Safe after after.Holds) :
    (session.resume number runner result).At custody after := by
  have hsite := hend.site_eq
  simp only [Machine.site, machine, Site.mk.injEq] at hsite
  obtain ⟨hprograms, hprogram, henv, hcalls⟩ := hsite
  have hsame : { runner with
      program := result.2.program, env := result.2.env,
      calls := result.2.calls } = runner := by
    rw [hprogram, henv, hcalls]
  have hsound := hend.sound
  change after.Sound session.programs at hsound
  refine ⟨hend.heap_eq, ?_, hend.world, ?_, fun other hother => ?_,
    fun value hvalue => ?_⟩
  · change after.Sound result.2.programs
    rwa [hprograms]
  · change SoundPrograms result.2.programs
    rw [hprograms]
    exact hat.programs
  · change other.SoundIn after result.2.programs
    rw [hprograms]
    refine (hat.runners other ?_).grows hgrows
    rcases List.mem_or_eq_of_mem_set hother with hold | hnew
    · exact hold
    · rw [hnew, hsame]
      exact List.mem_of_getElem? hrunner
  · rcases List.mem_append.mp hvalue with hnew | hold
    · exact hsafe.holds_values value hnew
    · exact (hat.answers value hold).extends hgrows.toExtends

theorem At.machine_at (hat : session.At custody store) (runner : Runner) :
    (session.machine runner).At custody (session.machine runner).site store :=
  ⟨rfl, hat.heap_eq, hat.sound, hat.world⟩

theorem At.serve {workers : Nat → Worker World}
    (hworkers : ∀ depth, (workers depth).SafeTo custody depth)
    (hat : session.At custody store) {supply : Supply}
    (hhonours : store.Honours supply) {given : Value → Prop}
    (hgiven : ∀ value, given value → store.Holds value) {request : Request}
    (hdraws : request.DrawsOn supply session.heap given) :
    ∃ after, store.Grows after ∧
      (serve workers request session).2.At custody after := by
  rw [hat.heap_eq] at hdraws
  cases request with
  | build tokens globals limit =>
      cases hparse : parse session.programs.size tokens with
      | ok parsed =>
          obtain ⟨hbuilt, hnumber, hscript⟩ := parse_built hparse
          simp only [Session.serve, hparse]
          exact (hat.pushProgram hbuilt hnumber).addRunner
            Array.getElem?_push_size hscript
            (fun global hglobal =>
              hhonours.holds hat.sound hgiven (hdraws global hglobal)) limit
      | _ =>
          simp only [Session.serve, hparse]
          exact ⟨store, .refl store, hat⟩
  | rebuild number globals limit =>
      cases hrunner : session.runners[number]? with
      | some runner =>
          obtain ⟨_, program, hprogram, hscript⟩ :=
            hat.runners runner (List.mem_of_getElem? hrunner)
          simp only [Session.serve, hrunner]
          exact hat.addRunner hprogram hscript
            (fun global hglobal =>
              hhonours.holds hat.sound hgiven (hdraws global hglobal)) limit
      | none =>
          simp only [Session.serve, hrunner]
          exact ⟨store, .refl store, hat⟩
  | use number action =>
      cases hrunner : session.runners[number]? with
      | some runner =>
          obtain ⟨henv, program, hprogram, hscript⟩ :=
            hat.runners runner (List.mem_of_getElem? hrunner)
          have hmachine := hat.machine_at runner
          obtain ⟨after, hgrows, hend, hsafe⟩ :=
            Use.safe_body hworkers hat.programs hprogram henv hscript hat.sound
              hhonours hgiven hdraws _ store (.refl store) hmachine
          simp only [Session.serve, hrunner]
          exact ⟨after, hgrows, hat.resume hrunner hgrows hend hsafe⟩
      | none =>
          simp only [Session.serve, hrunner]
          exact ⟨store, .refl store, hat⟩

end Session

/-- The store without frames and functions, and with what may be behind the
links that are there. -/
def Store.bare (behind : Link → Chain → Prop) : Store :=
  { heap := .empty, sealed := [], behind }

/-- The same store where links are not followed. -/
def Store.empty : Store :=
  .bare fun _ _ => True

theorem Store.honours_empty : Store.empty.Honours Heap.Obtainable :=
  honours_obtainable fun _ _ => trivial

theorem Store.sound_bare (behind : Link → Chain → Prop)
    (programs : Array Program) : (Store.bare behind).Sound programs where
  frames := fun _ _ hentry => absurd hentry List.not_mem_nil
  functions := fun _ hfunction => absurd hfunction (Array.not_mem_empty _)
  sealed_lt := fun _ hid => absurd hid List.not_mem_nil
  nodup := List.nodup_nil
  layered := trivial

theorem soundPrograms_empty : SoundPrograms #[.empty 0] := by
  intro number program hprogram
  obtain ⟨hlt, hget⟩ := Array.getElem?_eq_some_iff.mp hprogram
  obtain rfl : number = 0 := Nat.lt_one_iff.mp hlt
  rw [← hget]
  exact ⟨rfl, .empty 0⟩

namespace Session

variable {supply : Supply} {known : World → Value → Prop}
  {natives : Natives World} {origin : Store}

/-- A watched session is sound when it starts. -/
theorem at_start {behind : Link → Chain → Prop}
    (hhonours : (Store.bare behind).Honours supply) {world : World}
    (hworld : ∀ value, known world value →
      supply Heap.empty (fun _ => False) value) :
    ∃ store, (start (⟨world, []⟩ : Watched World)).At
      (Custody.watched (.bare behind) known) store := by
  have hsound := Store.sound_bare behind #[.empty 0]
  have hholds : (Store.bare behind).HoldsKnown known world :=
    fun value hvalue => hhonours.holds hsound (fun _ hfalse => hfalse.elim)
      (hworld value hvalue)
  have hkept : Watched.KeptBy (.bare behind) known (.bare behind)
      ⟨world, []⟩ :=
    ⟨.refl _, hholds, fun _ hmoment => absurd hmoment List.not_mem_nil, .nil,
      fun _ hmoment => absurd hmoment List.not_mem_nil,
      fun _ hmoment => absurd hmoment List.not_mem_nil⟩
  have hnone : (Store.bare behind).Reaches [] :=
    fun _ hframe => absurd hframe List.not_mem_nil
  obtain ⟨store, hheap, hsound', hgrows, hopen⟩ :=
    hsound.pushNew Container.all_empty hnone
  refine ⟨store, hheap.symm, hsound', hkept.extends hgrows.toExtends,
    soundPrograms_empty, fun runner hrunner => ?_,
    fun _ hvalue => absurd hvalue List.not_mem_nil⟩
  rw [List.mem_singleton.mp hrunner]
  exact ⟨hopen, .empty 0, rfl, [], rfl, fun _ hid =>
    absurd hid List.not_mem_nil⟩

/-- The values of a watched session that its host can use are held. -/
theorem At.holds_given {session : Session (Watched World)} {store : Store}
    (hat : session.At (Custody.watched origin known) store) :
    ∀ value, value ∈ session.answers ∨ known session.world.world value →
      store.Holds value := by
  rintro value (hvalue | hvalue)
  · exact hat.answers value hvalue
  · exact hat.world.holds value hvalue

/-- A request whose values are supplied leaves a watched session sound. -/
theorem At.serveWatched (hhonours : origin.Honours supply)
    (hnatives : natives.DrawOn supply known)
    {session : Session (Watched World)} {store : Store}
    (hat : session.At (Custody.watched origin known) store) {request : Request}
    (hdraws : (session.mapWorld Watched.world).DrawsOn supply known request) :
    ∃ after, (session.serveWatched natives request).At
      (Custody.watched origin known) after := by
  obtain ⟨after, _, hserved⟩ := hat.serve (watch_safeTo hhonours hnatives)
    (hhonours.extends hat.world.begun) hat.holds_given hdraws
  exact ⟨after, hserved.heap_eq, hserved.sound,
    hserved.world.note hserved.sound hserved.heap_eq rfl hserved.answers
      trivial trivial,
    hserved.programs, hserved.runners, hserved.answers⟩

theorem At.foldl_serveWatched (hhonours : origin.Honours supply)
    (hnatives : natives.DrawOn supply known)
    {session : Session (Watched World)} {store : Store}
    (hat : session.At (Custody.watched origin known) store)
    {requests : List Request}
    (hdraws : (session.mapWorld Watched.world).AllDrawOn supply known natives
      requests) :
    ∃ after, (requests.foldl (Session.serveWatched natives) session).At
      (Custody.watched origin known) after := by
  induction requests generalizing session store with
  | nil => exact ⟨store, hat⟩
  | cons request rest ih =>
      obtain ⟨hfirst, hrest⟩ := hdraws
      obtain ⟨after, hserved⟩ := hat.serveWatched hhonours hnatives hfirst
      rw [← mapWorld_serveWatched] at hrest
      exact ih hserved hrest

/-- The history of a session is sound if its host uses what it is supplied
with. -/
theorem at_supplied {behind : Link → Chain → Prop}
    (hhonours : (Store.bare behind).Honours supply) {world : World}
    {requests : List Request}
    (hsupplied : SuppliedSession supply known natives world requests) :
    ∃ store, (history natives world requests).At
      (Custody.watched (.bare behind) known) store := by
  obtain ⟨store, hat⟩ := at_start hhonours hsupplied.begins
  exact hat.foldl_serveWatched hhonours hsupplied.replies hsupplied.asks

/-- The history of a fair session is sound. -/
theorem at_history {world : World} {requests : List Request}
    (hfair : FairSession known natives world requests) :
    ∃ store, (history natives world requests).At
      (Custody.watched .empty known) store :=
  at_supplied Store.honours_empty hfair

end Session

end ChainScript
