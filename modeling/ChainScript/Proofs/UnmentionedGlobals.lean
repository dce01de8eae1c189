import ChainScript.Proofs.IgnoringEvaluation
import ChainScript.Proofs.Termination

/-
Globals that a script does not mention.

A host is given arrays, and it may look into them, but scopes are none of its
business.  A host that is discreet in this sense ignores the extra global as
the script does.  What it is called with is written down as text, at the moment
of the call.
-/

namespace ChainScript

open Step Run

variable {World Shown : Type}

/-- The functions of a host that does not look into scopes: the content of a
frame that is part of no array makes no difference to their replies. -/
def Natives.Discreet (known : World → Value → Prop) (natives : Natives World) :
    Prop :=
  ∀ name args heap world frame content,
    (∀ value, heap.Occurs (fun value =>
        value ∈ args.entries.map Prod.snd ∨ known world value) value →
      value.Avoids frame) →
    natives.reply name args
        { heap with frames := heap.frames.setIfInBounds frame content } world =
      natives.reply name args heap world

namespace Extra

variable {extra : Extra} {left right : Heap} {given : Value → Prop}

namespace Twins

variable (htwins : extra.Twins left right)

include htwins

/-- The heaps differ in one frame. -/
theorem eq_setIfInBounds :
    right = { left with frames :=
      left.frames.setIfInBounds extra.frame (right.frame extra.frame) } := by
  have hframes : right.frames =
      left.frames.setIfInBounds extra.frame (right.frame extra.frame) := by
    apply Array.ext
    · rw [Array.size_setIfInBounds, htwins.size_eq]
    · intro id hright hleft
      have hframe : right.frames[id] = right.frame id := by
        simp [Heap.frame, hright]
      have hlt : id < left.frames.size := htwins.size_eq ▸ hright
      rw [Array.getElem_setIfInBounds hlt, hframe]
      split
      · next heq => rw [heq]
      · next hne =>
          rw [htwins.frame_eq id (Ne.symm hne)]
          simp [Heap.frame, hlt]
  obtain ⟨frames, functions, nextLink⟩ := right
  obtain rfl := htwins.functions_eq
  obtain rfl := htwins.nextLink_eq
  exact congrArg (fun frames => Heap.mk frames _ _) hframes

theorem clear_of_occurs (hgiven : ∀ value, given value → extra.Clear value)
    {value : Value} (hvalue : left.Occurs given value) : extra.Clear value := by
  cases hvalue with
  | given hvalue => exact hgiven value hvalue
  | frame id hentry => exact htwins.frames id _ hentry
  | bound hfunction hentry => exact htwins.bound _ hfunction _ hentry

theorem clear_of_obtainable (hgiven : ∀ value, given value → extra.Clear value)
    {value : Value} (hvalue : left.Obtainable given value) :
    extra.Clear value := by
  cases value with
  | array chain =>
      intro hframe
      obtain ⟨other, hother, hin⟩ := hvalue extra.frame hframe
      exact htwins.clear_of_occurs hgiven hother hin
  | _ => trivial

end Twins

end Extra

section Hosts

variable {extra : Extra} {known : World → Value → Prop} {number : Nat}

private theorem clear_made {given : Value → Prop} {made : Value}
    (hgiven : ∀ value, given value → extra.Clear value)
    (hmade : extra.Clear made) :
    ∀ value, value = made ∨ given value → extra.Clear value := by
  rintro value (rfl | hvalue)
  · exact hmade
  · exact hgiven value hvalue

/-- A fair reply keeps the frame of the globals out of arrays, and does the
same with both heaps. -/
theorem Reply.Fair.ignores_carryOut {reply : Reply World}
    {given : Value → Prop} (hgiven : ∀ value, given value → extra.Clear value)
    {machine : Machine World} {heap : Heap}
    (hat : extra.At known number machine heap)
    (hfair : reply.Fair known machine.heap given) :
    ∃ after, carryOut reply { machine with heap } =
        ((carryOut reply machine).1,
          { (carryOut reply machine).2 with heap := after }) ∧
      extra.At known number (carryOut reply machine).2 after ∧
      (carryOut reply machine).1.Clear extra extra.Clear := by
  induction reply generalizing machine heap given with
  | answer result world =>
      obtain ⟨hanswer, hknown⟩ := hfair
      have hclear : ∀ value, machine.heap.Obtainable given value →
          extra.Clear value :=
        fun value hvalue => hat.twins.clear_of_obtainable hgiven hvalue
      have hat' : extra.At known number { machine with world } heap :=
        { hat with known := fun value hvalue => hclear value (hknown value hvalue) }
      cases result with
      | ok value => exact ⟨heap, rfl, hat', hclear value (hanswer value
          List.mem_cons_self)⟩
      | error exit =>
          exact ⟨heap, rfl, hat', fun value hvalue =>
            hclear value (hanswer value hvalue)⟩
  | array content next ih =>
      obtain ⟨hcontent, hrest⟩ := hfair
      have hclear : content.All extra.Clear := hcontent.mono fun _ hvalue =>
        hat.twins.clear_of_obtainable hgiven hvalue
      obtain ⟨middle, hsame, hat', hmade⟩ :=
        ignores_newArray hclear machine heap hat
      have hvalue : extra.Clear (machine.heap.addArray content).1 := hmade
      obtain ⟨after, hend⟩ := ih _ (clear_made hgiven hvalue) hat' hrest
      refine ⟨after, ?_⟩
      rw [carryOut, bind_apply, bind_apply, hsame]
      exact hend
  | compose one other next ih =>
      unfold Reply.Fair Reply.DrawsOn at hfair
      obtain ⟨hone, hother, hrest⟩ := hfair
      obtain ⟨middle, hsame, hat', hmade⟩ := ignores_compose
        (hat.twins.clear_of_obtainable hgiven hone)
        (hat.twins.clear_of_obtainable hgiven hother) machine heap hat
      have hstep := Run.compose_apply one other machine
      rw [carryOut, bind_apply, bind_apply, hsame]
      cases hcompose : machine.heap.compose one other with
      | error cause =>
          rw [hcompose] at hrest hstep
          rw [hstep] at hat' ⊢
          exact ih _ hgiven hat' hrest
      | ok made =>
          rw [hcompose] at hrest hstep
          rw [hstep] at hat' hmade ⊢
          exact ih _ (clear_made hgiven hmade) hat' hrest
  | native name next ih =>
      obtain ⟨middle, hsame, hat', hmade⟩ :=
        ignores_newNative name machine heap hat
      have hvalue : extra.Clear (.function machine.heap.functions.size) := hmade
      obtain ⟨after, hend⟩ := ih _ (clear_made hgiven hvalue) hat' hfair
      refine ⟨after, ?_⟩
      rw [carryOut, bind_apply, bind_apply, hsame]
      exact hend

/-- A fair host whose replies are the same ignores the global. -/
theorem Natives.Fair.ignores {natives : Natives World}
    (hfair : natives.Fair known)
    (hsame : ∀ name args left right world, extra.Twins left right →
      args.All extra.Clear → (∀ value, known world value → extra.Clear value) →
        natives.reply name args right world =
          natives.reply name args left world) :
    natives.Ignores extra known := by
  intro number name args hargs machine heap hat
  change ∃ after, carryOut (natives.reply name args heap machine.world)
    { machine with heap } = _ ∧ _
  rw [hsame name args machine.heap heap machine.world hat.twins hargs hat.known]
  refine Reply.Fair.ignores_carryOut ?_ hat
    (hfair name args machine.heap machine.world)
  rintro value (hvalue | hvalue)
  · obtain ⟨entry, hentry, rfl⟩ := List.mem_map.mp hvalue
    exact hargs entry hentry
  · exact hat.known value hvalue

theorem Natives.Discreet.reply_eq {natives : Natives World}
    (hdiscreet : natives.Discreet known) {left right : Heap}
    (htwins : extra.Twins left right) {args : Container Value}
    (hargs : args.All extra.Clear) {world : World}
    (hknown : ∀ value, known world value → extra.Clear value) (name : String) :
    natives.reply name args right world =
      natives.reply name args left world := by
  rw [htwins.eq_setIfInBounds]
  refine hdiscreet name args left world extra.frame _ fun value hvalue =>
    htwins.clear_of_occurs ?_ hvalue
  rintro value (hvalue | hvalue)
  · obtain ⟨entry, hentry, rfl⟩ := List.mem_map.mp hvalue
    exact hargs entry hentry
  · exact hknown value hvalue

end Hosts

/-- A call of a function of the host, with the texts of all of its
arguments. -/
structure ShownCall where
  name : String
  args : List (Key × Option String)
deriving Repr, DecidableEq

/-- The state of a host that writes down which of its functions are called and
how the arguments are displayed then, latest first. -/
structure Displayed (World : Type) where
  world : World
  calls : List ShownCall

/-- Arguments as they are displayed. -/
def Container.texts (args : Container Value) (heap : Heap) :
    List (Key × Option String) :=
  args.entries.map fun entry => (entry.1, heap.text? entry.2)

namespace Natives

/-- The functions of a host, which write down what they are called with. -/
def displayed (natives : Natives World) : Natives (Displayed World) where
  reply name args heap log :=
    (natives.reply name args heap log.world).map fun world =>
      ⟨world, ⟨name, args.texts heap⟩ :: log.calls⟩

theorem shownAs_displayed (natives : Natives World) :
    natives.displayed.ShownAs Displayed.world natives := by
  intro name args heap log
  change _ = ((natives.reply name args heap log.world).map _).map _
  rw [Reply.map_map]
  exact (Reply.map_id _).symm

end Natives

theorem Reply.DrawsOn.map {supply : Supply} {known : World → Value → Prop}
    {known' : Shown → Value → Prop} {view : World → Shown}
    (hview : ∀ world value, known' (view world) value → known world value)
    {reply : Reply World} {heap : Heap} {given : Value → Prop}
    (hdraws : reply.DrawsOn supply known heap given) :
    (reply.map view).DrawsOn supply known' heap given := by
  induction reply generalizing heap given with
  | answer result world =>
      exact ⟨hdraws.1, fun value hvalue =>
        hdraws.2 value (hview world value hvalue)⟩
  | array content next ih => exact ⟨hdraws.1, ih _ hdraws.2⟩
  | compose one other next ih =>
      unfold Reply.DrawsOn at hdraws
      obtain ⟨hone, hother, hrest⟩ := hdraws
      rw [Reply.map, Reply.DrawsOn]
      refine ⟨hone, hother, ?_⟩
      cases hcompose : heap.compose one other with
      | ok made =>
          rw [hcompose] at hrest
          exact ih _ hrest
      | error cause =>
          rw [hcompose] at hrest
          exact ih _ hrest
  | native name next ih => exact ih _ hdraws

section Displaying

variable {natives : Natives World} {known : World → Value → Prop}
  {extra : Extra}

theorem Natives.Fair.displayed (hfair : natives.Fair known) :
    natives.displayed.Fair fun log => known log.world := by
  intro name args heap log
  exact Reply.DrawsOn.map (fun _ _ hvalue => hvalue)
    (hfair name args heap log.world)

theorem Extra.Twins.texts_eq {left right : Heap}
    (htwins : extra.Twins left right) {args : Container Value}
    (hargs : args.All extra.Clear) : args.texts right = args.texts left :=
  List.map_congr_left fun entry hentry =>
    congrArg (Prod.mk entry.1) (htwins.text?_eq (hargs entry hentry))

/-- A fair and discreet host ignores the global, also while it writes down
what it is called with. -/
theorem Natives.Fair.displayed_ignores (hfair : natives.Fair known)
    (hdiscreet : natives.Discreet known) :
    natives.displayed.Ignores extra fun log => known log.world := by
  refine hfair.displayed.ignores ?_
  intro name args left right log htwins hargs hknown
  have hreply := hdiscreet.reply_eq htwins hargs hknown name
  change (natives.reply name args right log.world).map _ =
    (natives.reply name args left log.world).map _
  rw [hreply, htwins.texts_eq hargs]

end Displaying

section Globals

theorem Container.get?_setAll_congr {α : Type} {left right : Container α}
    {key : Key} (hsame : left.get? key = right.get? key)
    (entries : List (Key × α)) :
    (left.setAll entries).get? key = (right.setAll entries).get? key := by
  induction entries generalizing left right with
  | nil => exact hsame
  | cons entry rest ih =>
      exact ih (get?_set_congr hsame entry.1 entry.2)

/-- One more global is found under its own name only. -/
theorem get?_globalFrame_insert (before after : List (String × Value))
    (name : String) (value : Value) {key : Key} (hne : key ≠ .badge name) :
    (globalFrame (before ++ (name, value) :: after)).get? key =
      (globalFrame (before ++ after)).get? key := by
  simp only [globalFrame, Container.ofPairs, List.map_append, List.map_cons,
    Container.setAll_append, Container.setAll_cons]
  exact Container.get?_setAll_congr (Container.get?_set_of_ne _ value hne) _

variable {store : Store} {programs : Array Program}

/-- What is held is older than a frame that is still to be made. -/
theorem Store.Sound.avoids_size (hsound : store.Sound programs) {value : Value}
    (hvalue : store.Holds value) : value.Avoids store.heap.frames.size := by
  cases value with
  | array chain =>
      exact fun hframe =>
        Nat.lt_irrefl _ (hsound.sealed_lt _ (hvalue.1 _ hframe))
  | _ => trivial

/-- Two frames of globals that agree but for one name. -/
theorem Store.Sound.twins_pushNew (hsound : store.Sound programs)
    {content other : Container Value} (hcontent : store.HoldsAll content)
    {name : String} (hsame : ∀ key, key ≠ .badge name →
      other.get? key = content.get? key) (number : Nat) :
    Extra.Twins ⟨name, store.heap.frames.size, number⟩
      (store.heap.pushNew content []).2 (store.heap.pushNew other []).2 := by
  have hleft : ∀ id, (store.heap.pushNew content []).2.frame id =
      if id = store.heap.frames.size then content else store.heap.frame id :=
    store.heap.frame_addFrame content
  have hright : ∀ id, (store.heap.pushNew other []).2.frame id =
      if id = store.heap.frames.size then other else store.heap.frame id :=
    store.heap.frame_addFrame other
  refine
    { frame_lt := by simp [Heap.pushNew, Heap.addFrame, Heap.push]
      frames := fun id => ?_
      bound := fun function hfunction =>
        (hsound.functions function hfunction).1.mono fun _ hvalue =>
          hsound.avoids_size hvalue
      bodies := fun function hfunction => ?_
      size_eq := by simp [Heap.pushNew, Heap.addFrame, Heap.push]
      functions_eq := rfl
      nextLink_eq := rfl
      frame_eq := fun id hid => ?_
      get?_eq := fun key hkey => ?_ }
  · rw [hleft]
    split
    · exact hcontent.mono fun _ hvalue => hsound.avoids_size hvalue
    · exact (hsound.frames id).mono fun _ hvalue => hsound.avoids_size hvalue
  · have hknown := (hsound.functions function hfunction).2
    cases hbody : function.body with
    | native => trivial
    | script definition captured =>
        rw [hbody] at hknown
        exact fun hframe => absurd (hknown.2 _ hframe) (Nat.lt_irrefl _)
  · rw [hleft, hright, if_neg hid, if_neg hid]
  · rw [hleft, hright, if_pos rfl, if_pos rfl]
    exact hsame key hkey

end Globals

theorem Outcome.Clear.values {extra : Extra} {outcome : Outcome Exit Value}
    (hclear : outcome.Clear extra extra.Clear) :
    ∀ value ∈ outcome.values, extra.Clear value := by
  cases outcome with
  | ok value =>
      intro other hother
      rw [List.mem_singleton.mp hother]
      exact hclear
  | error exit => exact hclear
  | halted reason => exact fun _ hvalue => absurd hvalue List.not_mem_nil

/-- With one more global that it does not mention, a script does the same in a
heap that differs in no more than the value of this global. -/
theorem Session.At.runs_alike {known : World → Value → Prop}
    {natives : Natives World} (hfair : natives.Fair known)
    (hdiscreet : natives.Discreet known) {session : Session (Watched World)}
    {store : Store} (hat : session.At (Custody.watched .empty known) store)
    {parsed : ParsedScript} {before after : List (String × Value)}
    {name : String} (hsilent : parsed.program.mentions name = false)
    (value : Value) {tokens : List Token} {limit : Nat}
    (hbuild : (session.mapWorld Watched.world).Fair known
      (.build tokens (before ++ after) limit)) :
    let machine (globals : List (String × Value)) :
        Machine (Displayed World) :=
      .start session.heap (session.programs.push parsed.program)
        session.programs.size (globalFrame globals) limit
        ⟨session.world.world, []⟩
    let run (globals : List (String × Value)) :=
      runScript natives.displayed parsed.script (machine globals)
    ∃ heap, run (before ++ (name, value) :: after) =
        ((run (before ++ after)).1,
          { (run (before ++ after)).2 with heap }) ∧
      ∀ answer ∈ (run (before ++ after)).1.values,
        heap.text? answer = (run (before ++ after)).2.heap.text? answer := by
  intro machine run
  change ∀ global ∈ before ++ after, session.heap.Obtainable _ global.2
    at hbuild
  have hsound := hat.sound
  have hheap := hat.heap_eq
  have hhonours := Store.honours_empty.extends hat.world.begun
  have hholds : store.HoldsAll (globalFrame (before ++ after)) := by
    refine Container.all_ofPairs fun pair hpair => ?_
    obtain ⟨global, hglobal, rfl⟩ := List.mem_map.mp hpair
    exact hhonours.holds hsound hat.holds_given (hheap ▸ hbuild global hglobal)
  let extra : Extra := ⟨name, session.heap.frames.size, session.programs.size⟩
  have htwins := hsound.twins_pushNew hholds
    (fun _ hkey => get?_globalFrame_insert before after name value hkey)
    session.programs.size
  rw [← hheap] at htwins
  have hstart : extra.At (fun log => known log.world) session.programs.size
      (machine (before ++ after)) (session.heap.pushNew
        (globalFrame (before ++ (name, value) :: after)) []).2 :=
    { twins := htwins
      program_eq := rfl
      admits := fun _ => rfl
      silent := fun program hprogram => by
        have hlast : (session.programs.push parsed.program)[
          session.programs.size]? = some program := hprogram
        rw [Array.getElem?_push_size] at hlast
        exact Option.some.inj hlast ▸ hsilent
      known := fun value hvalue => by
        have havoids := hsound.avoids_size (hat.holds_given value (.inr hvalue))
        rwa [← hheap] at havoids }
  have hignores : Ignores extra (fun log => known log.world)
      session.programs.size (runScript natives.displayed parsed.script)
      extra.Clear :=
    runScript_ignores (hfair.displayed_ignores hdiscreet) parsed.script
  obtain ⟨heap, hsame, hend, hclear⟩ := hignores _ _ hstart
  exact ⟨heap, hsame, fun answer hanswer =>
    hend.twins.text?_eq (hclear.values answer hanswer)⟩

/-- A global that a script does not mention makes no difference to a run of the
script, and neither do its name and its value: the run comes to the same end,
with the same display text or the same fault, its place and its active calls
included, and it calls the same functions of the host, with arguments that are
displayed alike.  Functions that were there before the script have scopes of
their own, so they may mention the name. -/
theorem unmentioned_global_ignored {known : World → Value → Prop}
    {natives : Natives World} {world : World} {requests : List Request}
    (hfair : FairSession known natives world requests)
    (hdiscreet : natives.Discreet known) {tokens : List Token}
    {parsed : ParsedScript}
    (hparse : parse ((Session.start world).serveAll (evaluate natives)
      requests).programs.size tokens = .ok parsed)
    (before after : List (String × Value)) {name : String}
    (hsilent : parsed.program.mentions name = false) (value : Value)
    (limit : Nat)
    (hbuild : ((Session.start world).serveAll (evaluate natives)
      requests).Fair known (.build tokens (before ++ after) limit)) :
    let session := (Session.start world).serveAll (evaluate natives) requests
    let machine (globals : List (String × Value)) :
        Machine (Displayed World) :=
      .start session.heap (session.programs.push parsed.program)
        session.programs.size (globalFrame globals) limit ⟨session.world, []⟩
    let run (globals : List (String × Value)) :=
      runScript natives.displayed parsed.script (machine globals)
    let plain := run (before ++ after)
    let more := run (before ++ (name, value) :: after)
    (∀ globals, runScript natives parsed.script
        ((machine globals).mapWorld Displayed.world) =
          ((run globals).1, (run globals).2.mapWorld Displayed.world)) ∧
      plain.1.Answered ∧ more.1 = plain.1 ∧
      more.2.world.calls = plain.2.world.calls ∧
      more.2.world.world = plain.2.world.world ∧
      ∀ answer ∈ plain.1.values,
        more.2.heap.text? answer = plain.2.heap.text? answer := by
  obtain ⟨store, hat⟩ := Session.at_history hfair
  have hsession := Session.history_mapWorld natives world requests
  generalize (Session.start world).serveAll (evaluate natives) requests =
    session at hparse hbuild hsession ⊢
  subst hsession
  intro session machine run plain more
  have hplain : ∀ globals, runScript natives parsed.script
      ((machine globals).mapWorld Displayed.world) =
        ((run globals).1, (run globals).2.mapWorld Displayed.world) :=
    fun globals => (Worker.agrees_script
      (evaluate_agree natives.shownAs_displayed) parsed.script).shown
        (machine globals)
  have hanswered : (runScript natives parsed.script
      ((machine (before ++ after)).mapWorld Displayed.world)).1.Answered :=
    (hat.terminates_parsed hfair.replies hparse hbuild).answered
  rw [hplain] at hanswered
  obtain ⟨heap, hsame, htexts⟩ :=
    hat.runs_alike hfair.replies hdiscreet hsilent value hbuild
  have hmore : more = (plain.1, { plain.2 with heap }) := hsame
  refine ⟨hplain, hanswered, ?_⟩
  rw [hmore]
  exact ⟨rfl, rfl, rfl, htexts⟩

/-- The tokens of `t = [secret: 1]; keep(t.secret)`.  The name of the member is
not looked up in any scope. -/
def keepingMember : List Token :=
  [.ident "t", .mark .assign, .mark .openBracket, .ident "secret",
    .mark .colon, .int 1, .mark .closeBracket, .mark .semicolon,
    .ident "keep", .mark .openParen, .ident "t", .mark .dot, .ident "secret",
    .mark .closeParen, .eof].map fun kind => ⟨kind, .origin⟩

/-- A host makes its function and asks for nothing else. -/
def makingKeep : List Request :=
  [.use 0 (.native "keep")]

theorem fairSession_makingKeep :
    FairSession (fun kept value => value ∈ kept) keepingHost [] makingKeep where
  replies := keepingHost_fair
  begins := fun _ hvalue => absurd hvalue List.not_mem_nil
  asks := ⟨trivial, trivial⟩

theorem keepingHost_discreet (known : List Value → Value → Prop) :
    keepingHost.Discreet known :=
  fun _ _ _ _ _ _ _ => rfl

/-- The session of this host. -/
def makingKeepSession : Session (List Value) :=
  (Session.start []).serveAll (evaluate keepingHost) makingKeep

/-- A run of a script of this session. -/
def keepingMemberRun (parsed : ParsedScript)
    (globals : List (String × Value)) :
    Outcome Exit Value × Machine (Displayed (List Value)) :=
  runScript keepingHost.displayed parsed.script
    (.start makingKeepSession.heap
      (makingKeepSession.programs.push parsed.program)
      makingKeepSession.programs.size (globalFrame globals) 9
      ⟨makingKeepSession.world, []⟩)

theorem parse_keepingMember :
    ∃ parsed, parse makingKeepSession.programs.size keepingMember = .ok parsed ∧
      parsed.program.mentions "secret" = false ∧
      (keepingMemberRun parsed [("keep", .function 0)]).2.world.calls =
        [⟨"keep", [(.index 0, some "1")]⟩] := by
  have hok : (parse makingKeepSession.programs.size keepingMember).map
      (fun parsed => decide (parsed.program.mentions "secret" = false ∧
        (keepingMemberRun parsed [("keep", .function 0)]).2.world.calls =
          [⟨"keep", [(.index 0, some "1")]⟩])) = .ok true := by
    decide +kernel
  cases hparse : parse makingKeepSession.programs.size keepingMember with
  | ok parsed =>
      rw [hparse] at hok
      exact ⟨parsed, rfl, of_decide_eq_true (Outcome.ok.inj hok)⟩
  | _ =>
      rw [hparse] at hok
      cases hok

/-- A global named as a member is no more to the script than any other. -/
theorem unmentioned_global_ignored_member :
    ∃ parsed, parse makingKeepSession.programs.size keepingMember = .ok parsed ∧
      let plain := keepingMemberRun parsed [("keep", .function 0)]
      let more := keepingMemberRun parsed
        [("keep", .function 0), ("secret", .str "hidden")]
      more.1 = plain.1 ∧ plain.1.Answered ∧
        more.2.world.calls = [⟨"keep", [(.index 0, some "1")]⟩] := by
  obtain ⟨parsed, hparse, hsilent, hcalls⟩ := parse_keepingMember
  have hkeep : Value.function 0 ∈ makingKeepSession.answers := by
    decide +kernel
  have hbuild : makingKeepSession.Fair (fun kept value => value ∈ kept)
      (.build keepingMember ([("keep", .function 0)] ++ []) 9) := by
    intro global hglobal
    rw [List.mem_singleton.mp hglobal]
    exact (Heap.Occurs.given (.inl hkeep)).obtainable
  obtain ⟨-, hanswered, hsame, hshown, -, -⟩ := unmentioned_global_ignored
    fairSession_makingKeep (keepingHost_discreet _) hparse
    [("keep", .function 0)] [] hsilent (.str "hidden") 9 hbuild
  exact ⟨parsed, hparse, hsame, hanswered, hshown.trans hcalls⟩

/-- A host that looks into the scope of a function for a secret. -/
def peekingHost : Natives Unit where
  reply _ args heap _ :=
    let scope := (args.get? (.index 0)).bind heap.scopeOf?
    let secret := scope.bind fun chain => heap.lookup? chain (.badge "secret")
    .answer (.ok (secret.getD .null)) ()

/-- What this host finds is there already, so it makes up no values. -/
theorem peekingHost_fair : peekingHost.Fair fun _ _ => False := by
  intro name args heap world
  refine ⟨fun value hvalue => ?_, nofun⟩
  obtain rfl := List.mem_singleton.mp hvalue
  cases hsecret : ((args.get? (.index 0)).bind heap.scopeOf?).bind
      fun chain => heap.lookup? chain (.badge "secret") with
  | none => trivial
  | some secret =>
      obtain ⟨chain, _, hlookup⟩ := Option.bind_eq_some_iff.mp hsecret
      obtain ⟨found, hfound, rfl⟩ := Option.map_eq_some_iff.mp hlookup
      exact (Heap.all_resolveIn (fun id _ _ hentry =>
        Heap.Occurs.frame id hentry) hfound).obtainable

/-- The tokens of `peek(func() { })`. -/
def peekingScript : List Token :=
  [.ident "peek", .mark .openParen, .keyword .funcKw, .mark .openParen,
    .mark .closeParen, .mark .openBrace, .mark .closeBrace, .mark .closeParen,
    .eof].map fun kind => ⟨kind, .origin⟩

/-- The answer to a run of this script for a host that has made its function. -/
def peekedValue (globals : List (String × Value)) : Outcome Exit Value :=
  let requests : List Request := [.use 0 (.native "peek"),
    .build peekingScript (("peek", .function 0) :: globals) 9]
  let session := (Session.start ()).serveAll (evaluate peekingHost) requests
  (Session.serve (evaluate peekingHost) (.use 1 .run) session).1

/-- A host that makes up no values may still tell runs apart by a global that the
script does not mention. -/
theorem peeking_host_tells_runs_apart :
    peekingHost.Fair (fun _ _ => False) ∧
      (parse 1 peekingScript).map (·.program.mentions "secret") = .ok false ∧
      peekedValue [] = .ok .null ∧
      peekedValue [("secret", .int 7)] = .ok (.int 7) :=
  ⟨peekingHost_fair, by decide +kernel, by decide +kernel, by decide +kernel⟩

end ChainScript
