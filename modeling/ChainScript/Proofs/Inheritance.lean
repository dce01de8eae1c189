import ChainScript.Proofs.Accounts
import ChainScript.Proofs.BoundNames
import ChainScript.Proofs.Immutability
import ChainScript.Proofs.Merging

/-
Inheriting is composing with what the block has bound.

The block of an inherit statement runs in a frame that is made for it.  Nothing
but what the block binds there is written into the frame, and when the block
has ended with a value, the frame becomes the innermost one of a new array, on
top of the frames of the parent.  The parent stays as it is, and a block that
does not end with a value leaves no trace in any frame that was there before.
-/

namespace ChainScript

open Step Machine

variable {World : Type}

/-- The form of a statement of the running program. -/
def Machine.kind? (machine : Machine World) (id : StmtId) : Option StmtKind :=
  machine.programs[machine.program]?.bind fun program =>
    (program.stmt? id).map Stmt.kind

namespace Heap

/-- A block has ended that inherits from an array.  Its frame has the keys that
have been bound in it, in the order in which they were bound first, and each
with the value that was bound last.  The new array consists of the entries of
the parent with those of the frame set over them, as the composition of the
parent with the frame does.  It is bound in the innermost frame of the scope,
and nothing else has changed. -/
structure Inherits (before after : Heap) (env : Chain) (name parent : String)
    (base : Chain) (own : Link) (bound : List (Key × Value)) : Prop where
  parent_eq : before.lookup? env (.badge parent) = some (.array base)
  fresh : before.frames.size ≤ own.frame
  keys : (after.frame own.frame).keys = (bound.map Prod.fst).eraseDups
  values : ∀ key, (after.frame own.frame).get? key = valueAt? key bound.reverse
  merged : after.flatten (own :: base) =
    (after.flatten base).setAll (after.frame own.frame).entries
  composed : ∃ chain made, after.compose (.array base) (.array [own]) =
      .ok (.array chain, made) ∧
    chain.frames = Chain.frames (own :: base) ∧
    made.flatten chain = after.flatten (own :: base)
  named : ∀ innermost, env.innermost? = some innermost →
    after.frame innermost =
      (before.frame innermost).set (.badge name) (.array (own :: base))
  others : before.KeptBut env.innermost? after

/-- How a block that inherits ends: with an array of its frame and the parent's
frames, or with all frames as they were. -/
def EndsInherit (before after : Heap) (env : Chain) (name parent : String)
    (outcome : Outcome Exit Value) (meantime : List (Moment World)) : Prop :=
  match outcome with
  | .ok value => ∃ base own, value = .array (own :: base) ∧
      before.Inherits after env name parent base own
        (bindings own.frame meantime)
  | _ => before.KeptBut none after

/-- Composing with an array of one frame puts the frame on top. -/
theorem compose_single (heap : Heap) (base : Chain) (own : Link) :
    ∃ chain made, heap.compose (.array base) (.array [own]) =
        .ok (.array chain, made) ∧
      chain.frames = Chain.frames (own :: base) ∧
      made.flatten chain = heap.flatten (own :: base) := by
  let stacked := heap.stack [own] base
  have hframes : stacked.1.frames = Chain.frames (own :: base) :=
    heap.stack_frames [own] base
  refine ⟨stacked.1, stacked.2, rfl, hframes, ?_⟩
  unfold flatten
  rw [hframes]
  exact mergeFrames_congr fun id _ => heap.frame_stack [own] base id

end Heap

namespace Worker

variable {worker : Worker (Watched World)} {machine : Machine (Watched World)}

/-- The frame of an inheriting block holds what has been bound in it. -/
theorem wrote_ownFrame
    (hworker : worker.Keeps (Wrote machine.heap.frames.size) NotedAside)
    (base : Chain) (body : Block) :
    let own := machine.heap.frames.size
    let result := worker.ownFrame base body machine
    own < result.2.heap.frames.size ∧
      ∃ late, result.2.world.past = late ++ machine.world.past ∧
        result.2.heap.frame own = .ofPairs (bindings own late) := by
  intro own result
  let scope := machine.heap.ownScope base machine.env
  let started : Machine (Watched World) :=
    { machine with env := scope.1, heap := scope.2 }
  have hthere : own < started.heap.frames.size :=
    machine.heap.size_lt_ownScope base machine.env
  have hwrote : Wrote own started (worker.stmts body.stmts started).2 :=
    moves_stmts hworker body.stmts started
  have hkept := (hwrote.noted (List.cons_ne_nil _ _)).kept
  obtain ⟨late, hpast, hcontent⟩ := hwrote.content rfl hthere
  have hempty : started.heap.frame own = .empty :=
    machine.heap.frame_ownScope base machine.env
  have hresult : result = worker.ownFrame base body machine := rfl
  rw [ownFrame_apply] at hresult
  rw [hempty] at hcontent
  rw [hresult]
  exact ⟨Nat.lt_of_lt_of_le hthere hkept.frames.size_le, late, hpast, hcontent⟩

theorem ownFrame_eq_ok {base : Chain} {body : Block} {frame : FrameId}
    {after : Machine (Watched World)}
    (hok : worker.ownFrame base body machine = (.ok frame, after)) :
    frame = machine.heap.frames.size := by
  rw [ownFrame_apply] at hok
  have houtcome := congrArg Prod.fst hok
  dsimp only at houtcome
  generalize (worker.stmts body.stmts _).1 = outcome at houtcome
  cases outcome with
  | ok value => exact (Outcome.ok.inj houtcome).symm
  | _ => cases houtcome

/-- Without an array to inherit from, nothing happens. -/
theorem inherit_of_ne {name parent : String}
    (hparent : ∀ base, machine.heap.lookup? machine.env (.badge parent) ≠
      some (.array base)) (body : Block) :
    ∃ exit, worker.inherit name parent body machine =
      (.error exit, machine) := by
  unfold Worker.inherit
  rw [bind_apply, Run.lookup_apply]
  cases hvalue : machine.heap.lookup? machine.env (.badge parent) with
  | none => exact ⟨_, rfl⟩
  | some value =>
      cases value with
      | array base => exact absurd hvalue (hparent base)
      | _ => exact ⟨_, rfl⟩

theorem inherit_of_array {base : Chain} {name parent : String}
    (hparent : machine.heap.lookup? machine.env (.badge parent) =
      some (.array base)) (body : Block) :
    worker.inherit name parent body machine =
      (worker.ownFrame base body >>= fun own =>
        Run.withHeap (fun heap => heap.push own base) >>= fun chain =>
          bound name (.array chain)) machine := by
  unfold Worker.inherit
  rw [bind_apply, Run.lookup_apply, hparent]

/-- The name is bound to the new array when the frame of the block is
complete. -/
theorem inherits_bound {after : Machine (Watched World)} {innermost : FrameId}
    {name parent : String} {base : Chain} {pairs : List (Key × Value)}
    (hscope : machine.env.innermost? = some innermost)
    (hthere : innermost < machine.heap.frames.size)
    (hparent : machine.heap.lookup? machine.env (.badge parent) =
      some (.array base))
    (hkept : Kept AnyTwo none machine after)
    (hown : machine.heap.frames.size < after.heap.frames.size)
    (hcontent : after.heap.frame machine.heap.frames.size = .ofPairs pairs) :
    let pushed := after.heap.push machine.heap.frames.size base
    machine.heap.Inherits
      (bound name (.array pushed.1) { after with heap := pushed.2 }).2.heap
      machine.env name parent base
      ⟨after.heap.nextLink, machine.heap.frames.size⟩ pairs := by
  intro pushed
  let made : Machine (Watched World) := { after with heap := pushed.2 }
  have hscope' : made.env.innermost? = some innermost :=
    (congrArg Chain.innermost? hkept.restored.env).trans hscope
  have hthere' : innermost < made.heap.frames.size :=
    Nat.lt_of_lt_of_le hthere hkept.frames.size_le
  have hmade : machine.heap.KeptBut none made.heap :=
    hkept.frames.trans (after.heap.keptBut_push machine.heap.frames.size base)
  have hbound : made.heap.KeptBut (some innermost)
      (bound name (.array pushed.1) made).2.heap := by
    have hbound : Kept AnyTwo made.env.innermost? made
        (bound name (.array pushed.1) made).2 :=
      Run.moves_bind (.badge name) (.array pushed.1) made
        (Chain.ne_nil_of_innermost? hscope')
    exact hscope' ▸ hbound.frames
  -- The name is bound in a frame that is older than that of the block.
  have hframe : (bound name (.array pushed.1) made).2.heap.frame
      machine.heap.frames.size = .ofPairs pairs := by
    rw [hbound.frame_eq _ hown fun heq => ?_]
    · exact hcontent
    · cases heq
      exact Nat.lt_irrefl _ hthere
  refine ⟨hparent, Nat.le_refl _, ?_, fun key => ?_, rfl,
    Heap.compose_single _ base _, fun other hother => ?_, ?_⟩
  · rw [hframe, Container.keys_ofPairs]
  · rw [hframe, Container.get?_ofPairs]
  · obtain rfl : innermost = other := Option.some.inj (hscope.symm.trans hother)
    rw [← hmade.frame_eq innermost hthere (by simp)]
    exact made.frame_binding hscope' hthere' (some (.badge name, _))
  · rw [hscope]
    exact hmade.of_none.trans hbound

/-- How an inheriting block ends, with what has been written down in the
meantime. -/
theorem inherit_ends
    (hworker : ∀ own, worker.Keeps (Wrote own) NotedAside)
    {innermost : FrameId} (hscope : machine.env.innermost? = some innermost)
    (hthere : innermost < machine.heap.frames.size)
    (name parent : String) (body : Block) {meantime : List (Moment World)}
    (hpast : (worker.inherit name parent body machine).2.world.past =
      meantime ++ machine.world.past) :
    machine.heap.EndsInherit (worker.inherit name parent body machine).2.heap
      machine.env name parent (worker.inherit name parent body machine).1
      meantime := by
  by_cases harray : ∃ base,
      machine.heap.lookup? machine.env (.badge parent) = some (.array base)
  · obtain ⟨base, hparent⟩ := harray
    rw [inherit_of_array hparent, bind_apply] at hpast ⊢
    have hnoted : NotedAside machine (worker.ownFrame base body machine).2 :=
      moves_ownFrame (hworker 0).noted base body machine
    have hkept := (hnoted (Chain.ne_nil_of_innermost? hscope)).kept
    obtain ⟨hown, late, hlate, hcontent⟩ :=
      wrote_ownFrame (hworker machine.heap.frames.size) base body
    rcases hend : worker.ownFrame base body machine with ⟨outcome, after⟩
    rw [hend] at hkept hown hlate hcontent hpast
    cases outcome with
    | error exit => exact hkept.frames
    | halted reason => exact hkept.frames
    | ok frame =>
        obtain rfl := ownFrame_eq_ok hend
        have hsame : meantime = late :=
          List.append_cancel_right (hpast.symm.trans hlate)
        exact ⟨base, _, rfl, hsame ▸
          inherits_bound hscope hthere hparent hkept hown hcontent⟩
  · obtain ⟨exit, hfails⟩ := inherit_of_ne (not_exists.mp harray) body
    rw [hfails]
    exact .refl machine.heap

end Worker

/-- A place in an exit makes no difference. -/
theorem Heap.EndsInherit.located {Seen : Type} {before : Heap} {env : Chain}
    {name parent : String} {meantime : List (Moment Seen)} {span : Span}
    {body : Run World Value} {machine : Machine World}
    (hends : before.EndsInherit (body machine).2.heap env name parent
      (body machine).1 meantime) :
    before.EndsInherit (Run.located span body machine).2.heap env name parent
      (Run.located span body machine).1 meantime := by
  unfold Run.located mapError
  rcases hbody : body machine with ⟨outcome, after⟩
  rw [hbody] at hends
  cases outcome <;> exact hends

/-- The account of all statements that inherit, wherever there is a frame to
bind the name in. -/
def Account.inheriting : Account World :=
  fun task before outcome after meantime =>
    ∀ id name parent body innermost, task = .stmt id →
      before.kind? id = some (.inheritBlock name parent body) →
      before.env.innermost? = some innermost →
      innermost < before.heap.frames.size →
      before.heap.EndsInherit after.heap before.env name parent outcome
        meantime

theorem Natives.bear_inheriting (natives : Natives World) :
    natives.Bear Account.inheriting := by
  intro depth task machine _ result meantime hpast id name parent body
    innermost htask hkind hinnermost hthere
  subst htask
  obtain ⟨program, hprogram, hrow⟩ := Option.bind_eq_some_iff.mp hkind
  obtain ⟨stmt, hstmt, hform⟩ := Option.map_eq_some_iff.mp hrow
  let worker := watch natives depth
  let started := machine.began (.stmt id)
  have hprogram' : started.programs[started.program]? = some program :=
    hprogram
  have hresult : result = Run.located stmt.span
      (worker.inherit name parent body) started := by
    have happly : result = (worker.operand stmt.kind >>= fun operand =>
        Run.located stmt.span (worker.stmtKind stmt.span operand stmt.kind))
          started :=
      Worker.evalStmt_apply hprogram' hstmt
    rw [hform] at happly
    exact happly
  have hpast' : (worker.inherit name parent body started).2.world.past =
      meantime ++ started.world.past := by
    rw [← hpast, hresult, Run.located, mapError_snd]
  have hscope : started.env.innermost? = some innermost := hinnermost
  rw [hresult]
  exact (Worker.inherit_ends (fun own => watch_wrote natives own depth) hscope
    hthere name parent body hpast').located

/-- An array that is found in a scope has frames that are sealed, and the
innermost frame of a scope that can be written is not. -/
theorem Store.Sound.parent_kept {store : Store} {programs : Array Program}
    (hsound : store.Sound programs) {env : Chain} (hopen : store.Open env)
    {key : Key} {base : Chain}
    (hbase : store.heap.lookup? env key = some (.array base)) {after : Heap}
    (hkept : store.heap.KeptBut env.innermost? after) :
    store.heap.KeepsArray after base := by
  have hsealed : store.Holds (.array base) := hsound.holds_lookup? hbase
  obtain ⟨link, outer, rfl, hunsealed⟩ := hopen.unsealed
  refine Heap.keepsArray_of_frames fun frame hframe => ?_
  refine hkept.frame_eq frame (hsound.sealed_lt frame (hsealed.1 frame hframe))
    fun heq => ?_
  cases heq
  exact hunsealed (hsealed.1 _ hframe)

/-- Inheriting is composing with what the block has bound.  Every statement of a
fair session that inherits and ends with a value has made an array of the frame
of its block, which holds what has been bound there in the meantime, and the
frames of the parent, which are as before.  One that ends otherwise has bound
nothing in the frames from before. -/
theorem inherit_composes {known : World → Value → Prop}
    {natives : Natives World} {world : World} {requests : List Request}
    (hfair : FairSession known natives world requests) :
    let history := Session.history natives world requests
    history.mapWorld Watched.world =
        (Session.start world).serveAll (evaluate natives) requests ∧
      ∀ later id before outcome after earlier,
        history.world.past =
            later ++ .ends (.stmt id) before outcome after :: earlier →
        ∀ name parent body,
          before.kind? id = some (.inheritBlock name parent body) →
          ∃ meantime older,
            earlier = meantime ++ .begins (.stmt id) before :: older ∧
            match outcome with
            | .ok value => ∃ base own, value = .array (own :: base) ∧
                before.heap.Inherits after.heap before.env name parent base own
                  (bindings own.frame meantime) ∧
                before.heap.KeepsArray after.heap base
            | _ => before.heap.KeptBut none after.heap := by
  intro history
  refine ⟨Session.history_mapWorld natives world requests, ?_⟩
  intro later id before outcome after earlier hpast name parent body hkind
  obtain ⟨store, hat⟩ := Session.at_history hfair
  obtain ⟨meantime, older, rfl, haccount⟩ :=
    Session.tells_history natives.bear_inheriting world requests later _ _ _ _ _
      hpast
  refine ⟨meantime, older, rfl, ?_⟩
  -- The statement began in a scope with an innermost frame of its own, so the
  -- account applies, and the name is bound in no frame of the parent.
  have hbegins : Moment.begins (.stmt id) before ∈ history.world.past := by
    simp [hpast]
  obtain ⟨seen, hheap, hsound, hopen⟩ := hat.world.placed _ hbegins
  obtain ⟨link, outer, henv, _⟩ := hopen.unsealed
  have hinnermost : before.env.innermost? = some link.frame := by
    rw [henv]
    rfl
  have hthere : link.frame < before.heap.frames.size :=
    hheap ▸ hopen.reaches link.frame (henv ▸ List.mem_cons_self)
  have hends :=
    haccount id name parent body link.frame rfl hkind hinnermost hthere
  cases outcome with
  | error exit => exact hends
  | halted reason => exact hends
  | ok value =>
      obtain ⟨base, own, rfl, hinherits⟩ := hends
      have hparent := hinherits.parent_eq
      have hothers := hinherits.others
      rw [← hheap] at hparent hothers
      have hkeeps := hsound.parent_kept hopen hparent hothers
      exact ⟨base, own, rfl, hinherits, hheap ▸ hkeeps⟩

/-- The keys in the frame of a block that inherits and has just ended with an
array. -/
def Moment.inheritedKeys? : Moment World → Option (List Key)
  | .ends (.stmt id) before (.ok (.array (own :: _))) after =>
      match before.kind? id with
      | some (.inheritBlock _ _ _) => some (after.heap.frame own.frame).keys
      | _ => none
  | _ => none

/-- The block of this session binds a number and a function, and its parent
holds one more number. -/
theorem inherit_composes_inheritingTwice :
    ∃ (before after : Machine (List Value)) (name parent : String)
      (base : Chain) (own : Link) (bound : List (Key × Value)),
      before.heap.Inherits after.heap before.env name parent base own bound ∧
        before.heap.KeepsArray after.heap base ∧
        (bound.map Prod.fst).eraseDups = [.badge "n", .badge "f"] := by
  let past := (Session.history keepingHost [] inheritingTwice).world.past
  have hended : [.badge "n", .badge "f"] ∈
      past.filterMap Moment.inheritedKeys? := by
    decide +kernel
  obtain ⟨moment, hmoment, hkeys⟩ := List.mem_filterMap.mp hended
  obtain ⟨later, earlier, hpast⟩ := List.append_of_mem hmoment
  have hcomposes := (inherit_composes fairSession_inheritingTwice).2
  unfold Moment.inheritedKeys? at hkeys
  split at hkeys
  · next id before own rest after =>
    split at hkeys
    · next name parent body hkind =>
        obtain ⟨meantime, _, _, base, _, hvalue, hinherits, hkeeps⟩ :=
          hcomposes later id before _ after earlier hpast name parent body hkind
        cases hvalue
        exact ⟨before, after, name, parent, rest, own, _, hinherits, hkeeps,
          hinherits.keys.symm.trans (Option.some.inj hkeys)⟩
    · cases hkeys
  · cases hkeys

end ChainScript
