import ChainScript.Operators
import ChainScript.Proofs.BuiltPrograms

/-
Which frames belong to arrays.

A frame is sealed when it becomes part of an array.  Sealed frames are kept in
the order in which they were sealed, latest first: the values in a sealed frame
are made of frames that were sealed before it, so no array contains itself.
Assignments write frames that are not sealed.
-/

namespace ChainScript

namespace Container

variable {α : Type} {property : α → Prop}

/-- All values of a container have a property. -/
def All (property : α → Prop) (container : Container α) : Prop :=
  ∀ entry ∈ container.entries, property entry.2

theorem all_empty : (empty : Container α).All property :=
  fun _ hentry => absurd hentry List.not_mem_nil

theorem All.mono {more : α → Prop} {container : Container α}
    (hall : container.All property)
    (hmore : ∀ value, property value → more value) : container.All more :=
  fun entry hentry => hmore entry.2 (hall entry hentry)

private theorem mem_setEntry {key : Key} {value : α}
    {entries : List (Key × α)} {entry : Key × α}
    (hentry : entry ∈ setEntry key value entries) :
    entry = (key, value) ∨ entry ∈ entries := by
  induction entries with
  | nil => exact .inl (List.mem_singleton.mp hentry)
  | cons first rest ih =>
      obtain ⟨other, old⟩ := first
      unfold setEntry at hentry
      split at hentry
      · rcases List.mem_cons.mp hentry with hnew | hrest
        · exact .inl hnew
        · exact .inr (List.mem_cons_of_mem _ hrest)
      · rcases List.mem_cons.mp hentry with hfirst | hrest
        · exact .inr (hfirst ▸ List.mem_cons_self)
        · exact (ih hrest).imp_right (List.mem_cons_of_mem _)

theorem All.set {container : Container α} (hall : container.All property)
    (key : Key) {value : α} (hvalue : property value) :
    (container.set key value).All property := by
  intro entry hentry
  rcases mem_setEntry hentry with rfl | hold
  · exact hvalue
  · exact hall entry hold

theorem All.append {container : Container α} (hall : container.All property)
    {value : α} (hvalue : property value) :
    (container.append value).2.All property := by
  unfold Container.append
  split
  · exact hall.set _ hvalue
  · exact hall

theorem All.expand {container : Container α} (hall : container.All property)
    {entries : List (Key × α)}
    (hentries : ∀ entry ∈ entries, property entry.2) :
    (container.expand entries).All property := by
  induction entries generalizing container with
  | nil => exact hall
  | cons entry rest ih =>
      have hvalue := hentries entry List.mem_cons_self
      have hspliced : (container.splice entry).All property := by
        unfold splice
        split
        · exact hall.append hvalue
        · exact hall.set _ hvalue
      exact ih hspliced fun other hother =>
        hentries other (List.mem_cons_of_mem _ hother)

theorem All.setAll {container : Container α} (hall : container.All property)
    {entries : List (Key × α)}
    (hentries : ∀ entry ∈ entries, property entry.2) :
    (container.setAll entries).All property := by
  induction entries generalizing container with
  | nil => exact hall
  | cons entry rest ih =>
      have hset := hall.set entry.1 (hentries entry List.mem_cons_self)
      exact ih hset fun other hother =>
        hentries other (List.mem_cons_of_mem _ hother)

theorem all_ofPairs {pairs : List (Key × α)}
    (hpairs : ∀ pair ∈ pairs, property pair.2) :
    (ofPairs pairs).All property :=
  all_empty.setAll hpairs

private theorem mem_of_valueAt? {key : Key} {entries : List (Key × α)}
    {value : α} (hvalue : valueAt? key entries = some value) :
    (key, value) ∈ entries := by
  induction entries with
  | nil => cases hvalue
  | cons entry rest ih =>
      obtain ⟨other, old⟩ := entry
      unfold valueAt? at hvalue
      split at hvalue
      · next heq =>
          cases hvalue
          exact heq ▸ List.mem_cons_self
      · exact List.mem_cons_of_mem _ (ih hvalue)

theorem All.get? {container : Container α} (hall : container.All property)
    {key : Key} {value : α} (hvalue : container.get? key = some value) :
    property value :=
  hall _ (mem_of_valueAt? hvalue)

end Container

namespace Heap

variable {heap : Heap} {property : Value → Prop} {frames : List FrameId}

/-- What is found in frames is in one of them. -/
theorem all_resolveIn (hframes : ∀ id ∈ frames, (heap.frame id).All property)
    {key : Key} {found : Value × FrameId}
    (hfound : heap.resolveIn key frames = some found) : property found.1 := by
  induction frames with
  | nil => cases hfound
  | cons frame outer ih =>
      unfold resolveIn at hfound
      split at hfound
      · next value hvalue =>
          cases hfound
          exact (hframes frame List.mem_cons_self).get? hvalue
      · exact ih (fun id hid => hframes id (List.mem_cons_of_mem _ hid)) hfound

theorem all_mergeFrames
    (hframes : ∀ id ∈ frames, (heap.frame id).All property) :
    (heap.mergeFrames frames).All property := by
  induction frames with
  | nil => exact Container.all_empty
  | cons frame outer ih =>
      have houter :=
        ih fun id hid => hframes id (List.mem_cons_of_mem _ hid)
      exact houter.setAll (hframes frame List.mem_cons_self)

theorem frame_addFrame (heap : Heap) (content : Container Value)
    (id : FrameId) :
    (heap.addFrame content).2.frame id =
      if id = heap.frames.size then content else heap.frame id := by
  simp only [addFrame, frame, Array.getElem?_push]
  split <;> rfl

end Heap

/-- A heap, its sealed frames, latest first, and what may be behind a link of an
array.  That is anything, unless links are followed. -/
structure Store where
  heap : Heap
  sealed : List FrameId
  behind : Link → Chain → Prop := fun _ _ => True

namespace Store

/-- Behind each link of a chain is what may be there. -/
def Follows (store : Store) (chain : Chain) : Prop :=
  ∀ link outer, link :: outer <:+ chain → store.behind link outer

@[simp] theorem follows_any (heap : Heap) (sealed : List FrameId)
    (chain : Chain) : Follows { heap, sealed } chain :=
  fun _ _ _ => trivial

/-- The parts of a value are there, and those of an array are sealed. -/
def Holds (store : Store) : Value → Prop
  | .array chain =>
      (∀ frame ∈ chain.frames, frame ∈ store.sealed) ∧ store.Follows chain
  | .function id => id < store.heap.functions.size
  | _ => True

/-- The number of a link tells the link, and what is behind it.  All numbers
have been handed out. -/
structure Numbered (store : Store) : Prop where
  number_lt : ∀ {link outer}, store.behind link outer →
    link.number < store.heap.nextLink
  eq_of_number : ∀ {link other outer outer'}, store.behind link outer →
    store.behind other outer' → link.number = other.number →
      link = other ∧ outer = outer'

/-- The values in a container are held. -/
def HoldsAll (store : Store) (content : Container Value) : Prop :=
  content.All store.Holds

/-- All frames of a scope are there. -/
def Reaches (store : Store) (chain : Chain) : Prop :=
  ∀ frame ∈ chain.frames, frame < store.heap.frames.size

/-- A scope whose innermost frame can be written. -/
structure Open (store : Store) (chain : Chain) : Prop where
  reaches : store.Reaches chain
  unsealed : ∃ link outer, chain = link :: outer ∧ link.frame ∉ store.sealed

/-- A function refers to a definition and a scope that are there. -/
def Knows (store : Store) (programs : Array Program) :
    FunctionBody → Prop
  | .script number definition captured =>
      (∃ program, programs[number]? = some program ∧
        program.HasFunc definition) ∧ store.Reaches captured
  | .native => True

/-- Each frame of a list holds values made of the frames after it. -/
def Layered (heap : Heap) : List FrameId → Prop
  | [] => True
  | frame :: older =>
      Store.HoldsAll { heap, sealed := older } (heap.frame frame) ∧
        Layered heap older

/-- All that is in the heap is held, and no array contains itself. -/
structure Sound (store : Store) (programs : Array Program) : Prop where
  frames : ∀ id, store.HoldsAll (store.heap.frame id)
  functions : ∀ function ∈ store.heap.functions,
    store.HoldsAll function.bound ∧ store.Knows programs function.body
  sealed_lt : ∀ id ∈ store.sealed, id < store.heap.frames.size
  nodup : store.sealed.Nodup
  layered : Layered store.heap store.sealed

/-- What is there is still there, and sealed frames have not changed.  Links are
still numbered. -/
structure Extends (before after : Store) : Prop where
  frames_le : before.heap.frames.size ≤ after.heap.frames.size
  functions : before.heap.functions.toList <+: after.heap.functions.toList
  sealed_suffix : before.sealed <:+ after.sealed
  frame_eq : ∀ id ∈ before.sealed, after.heap.frame id = before.heap.frame id
  behind : ∀ link outer, before.behind link outer → after.behind link outer
  numbered : before.Numbered → after.Numbered

/-- What is more, only new frames have been sealed. -/
structure Grows (before after : Store) : Prop extends
    before.Extends after where
  sealed_new : ∀ id ∈ after.sealed, id ∉ before.sealed →
    before.heap.frames.size ≤ id

variable {store before after : Store} {programs : Array Program}

theorem Extends.refl (store : Store) : store.Extends store :=
  ⟨Nat.le_refl _, List.prefix_rfl, List.suffix_rfl, fun _ _ => rfl,
    fun _ _ hbehind => hbehind, fun hnumbered => hnumbered⟩

theorem Extends.trans {last : Store} (hfirst : before.Extends after)
    (hsecond : after.Extends last) : before.Extends last := by
  refine ⟨Nat.le_trans hfirst.frames_le hsecond.frames_le,
    hfirst.functions.trans hsecond.functions,
    hfirst.sealed_suffix.trans hsecond.sealed_suffix, fun id hid => ?_,
    fun link outer hbehind =>
      hsecond.behind link outer (hfirst.behind link outer hbehind),
    fun hnumbered => hsecond.numbered (hfirst.numbered hnumbered)⟩
  rw [hsecond.frame_eq id (hfirst.sealed_suffix.subset hid),
    hfirst.frame_eq id hid]

theorem Grows.refl (store : Store) : store.Grows store :=
  { Extends.refl store with sealed_new := fun _ hid hnot => absurd hid hnot }

theorem Grows.trans {last : Store} (hfirst : before.Grows after)
    (hsecond : after.Grows last) : before.Grows last := by
  refine { hfirst.toExtends.trans hsecond.toExtends with
    sealed_new := fun id hid hnot => ?_ }
  by_cases hmiddle : id ∈ after.sealed
  · exact hfirst.sealed_new id hmiddle hnot
  · exact Nat.le_trans hfirst.frames_le (hsecond.sealed_new id hid hmiddle)

theorem Extends.functions_le (hextends : before.Extends after) :
    before.heap.functions.size ≤ after.heap.functions.size := by
  simpa using hextends.functions.length_le

theorem Follows.extends {chain : Chain} (hchain : before.Follows chain)
    (hextends : before.Extends after) : after.Follows chain :=
  fun link outer hpart => hextends.behind link outer (hchain link outer hpart)

/-- What is held is held also where links are not followed. -/
theorem Holds.unfollowed {value : Value} (hvalue : store.Holds value) :
    Holds { heap := store.heap, sealed := store.sealed } value := by
  cases value with
  | array chain => exact ⟨hvalue.1, follows_any _ _ chain⟩
  | function id => exact hvalue
  | _ => trivial

theorem Holds.extends {value : Value} (hvalue : before.Holds value)
    (hextends : before.Extends after) : after.Holds value := by
  cases value with
  | array chain =>
      exact ⟨fun frame hframe =>
        hextends.sealed_suffix.subset (hvalue.1 frame hframe),
        hvalue.2.extends hextends⟩
  | function id => exact Nat.lt_of_lt_of_le hvalue hextends.functions_le
  | _ => trivial

theorem HoldsAll.extends {content : Container Value}
    (hcontent : before.HoldsAll content) (hextends : before.Extends after) :
    after.HoldsAll content :=
  hcontent.mono fun _ hvalue => hvalue.extends hextends

theorem Reaches.extends {chain : Chain} (hchain : before.Reaches chain)
    (hextends : before.Extends after) : after.Reaches chain :=
  fun frame hframe => Nat.lt_of_lt_of_le (hchain frame hframe) hextends.frames_le

/-- An open scope stays open, since its innermost frame is too old to be
sealed. -/
theorem Open.grows {chain : Chain} (hopen : before.Open chain)
    (hgrows : before.Grows after) : after.Open chain := by
  refine ⟨hopen.reaches.extends hgrows.toExtends, ?_⟩
  obtain ⟨link, outer, rfl, hnot⟩ := hopen.unsealed
  refine ⟨link, outer, rfl, fun hsealed => ?_⟩
  have hlt := hopen.reaches link.frame List.mem_cons_self
  exact Nat.not_le.mpr hlt (hgrows.sealed_new _ hsealed hnot)

theorem Knows.extends {body : FunctionBody} (hbody : before.Knows programs body)
    (hextends : before.Extends after) : after.Knows programs body := by
  cases body with
  | script number definition captured =>
      exact ⟨hbody.1, hbody.2.extends hextends⟩
  | native => trivial

/-- The frames of a held array hold only values that are held. -/
theorem Sound.all_frames (hsound : store.Sound programs) (chain : Chain) :
    ∀ id ∈ chain.frames, (store.heap.frame id).All store.Holds :=
  fun id _ => hsound.frames id

theorem Sound.holds_lookup? (hsound : store.Sound programs) {chain : Chain}
    {key : Key} {value : Value}
    (hvalue : store.heap.lookup? chain key = some value) :
    store.Holds value := by
  obtain ⟨found, hfound, rfl⟩ := Option.map_eq_some_iff.mp hvalue
  exact Heap.all_resolveIn (hsound.all_frames chain) hfound

theorem Sound.holdsAll_flatten (hsound : store.Sound programs)
    (chain : Chain) : store.HoldsAll (store.heap.flatten chain) :=
  Heap.all_mergeFrames (hsound.all_frames chain)

theorem Sound.function (hsound : store.Sound programs) {id : FunctionId}
    {function : Function}
    (hfunction : store.heap.function? id = some function) :
    store.HoldsAll function.bound ∧ store.Knows programs function.body :=
  hsound.functions function (Array.mem_of_getElem? hfunction)

theorem Holds.function? {id : FunctionId} (hid : store.Holds (.function id)) :
    ∃ function, store.heap.function? id = some function :=
  ⟨_, Array.getElem?_eq_getElem hid⟩

/-- Sealed frames keep their layers where their contents stay the same. -/
theorem Layered.congr {heap other : Heap} {frames : List FrameId}
    (hlayered : Layered heap frames)
    (hfunctions : heap.functions.size ≤ other.functions.size)
    (hframes : ∀ id ∈ frames, other.frame id = heap.frame id) :
    Layered other frames := by
  induction frames with
  | nil => trivial
  | cons frame older ih =>
      refine ⟨?_, ih hlayered.2 fun id hid =>
        hframes id (List.mem_cons_of_mem _ hid)⟩
      rw [hframes frame List.mem_cons_self]
      refine hlayered.1.mono fun value hvalue => ?_
      cases value with
      | function id => exact Nat.lt_of_lt_of_le hvalue hfunctions
      | array chain => exact hvalue
      | _ => trivial

section Adding

variable (store) (content : Container Value) (function : Function)

/-- One more frame, which is not sealed. -/
def addFrame : Store :=
  { store with heap := (store.heap.addFrame content).2 }

/-- One more function. -/
def addFunction : Store :=
  { store with heap := (store.heap.addFunction function).2 }

/-- A frame becomes part of an array. -/
def markSealed (id : FrameId) : Store :=
  { store with sealed := id :: store.sealed }

/-- One more link, with a chain behind it. -/
def addLink (frame : FrameId) (chain : Chain) : Store where
  heap := (store.heap.push frame chain).2
  sealed := store.sealed
  behind link outer :=
    store.behind link outer ∨ link :: outer = (store.heap.push frame chain).1

/-- One more link for each of some frames, on top of a chain. -/
def addLinks : List FrameId → Chain → Store
  | [], _ => store
  | frame :: outer, base =>
      (addLinks outer base).addLink frame (store.heap.pushAll outer base).1

variable {store} {content} {function}

theorem Sound.grows_addFrame (hsound : store.Sound programs) :
    store.Grows (store.addFrame content) := by
  refine ⟨⟨?_, List.prefix_rfl, List.suffix_rfl, fun id hid => ?_,
    fun _ _ hbehind => hbehind, fun hnumbered => ⟨hnumbered.1, hnumbered.2⟩⟩,
    fun _ hid hnot => absurd hid hnot⟩
  · simp [addFrame, Heap.addFrame]
  · exact store.heap.frame_addFrame_of_lt content (hsound.sealed_lt id hid)

theorem Sound.addFrame (hsound : store.Sound programs)
    (hcontent : store.HoldsAll content) :
    (store.addFrame content).Sound programs := by
  have hgrows : store.Extends (store.addFrame content) :=
    hsound.grows_addFrame.toExtends
  refine ⟨fun id => ?_, fun function hfunction => ?_, fun id hid => ?_,
    hsound.nodup, ?_⟩
  · have hframe : (store.addFrame content).heap.frame id =
        if id = store.heap.frames.size then content
        else store.heap.frame id := store.heap.frame_addFrame content id
    rw [hframe]
    split
    · exact hcontent.extends hgrows
    · exact (hsound.frames id).extends hgrows
  · obtain ⟨hbound, hbody⟩ := hsound.functions function hfunction
    exact ⟨hbound.extends hgrows, hbody.extends hgrows⟩
  · exact Nat.lt_of_lt_of_le (hsound.sealed_lt id hid) hgrows.frames_le
  · exact hsound.layered.congr (Nat.le_refl _) hgrows.frame_eq

theorem grows_addFunction : store.Grows (store.addFunction function) :=
  ⟨⟨Nat.le_refl _, by simp [addFunction, Heap.addFunction], List.suffix_rfl,
    fun _ _ => rfl, fun _ _ hbehind => hbehind,
    fun hnumbered => ⟨hnumbered.1, hnumbered.2⟩⟩,
    fun _ hid hnot => absurd hid hnot⟩

theorem Sound.addFunction (hsound : store.Sound programs)
    (hbound : store.HoldsAll function.bound)
    (hbody : store.Knows programs function.body) :
    (store.addFunction function).Sound programs := by
  have hgrows : store.Extends (store.addFunction function) :=
    grows_addFunction.toExtends
  refine ⟨fun id => (hsound.frames id).extends hgrows,
    fun other hother => ?_, hsound.sealed_lt, hsound.nodup,
    hsound.layered.congr hgrows.functions_le hgrows.frame_eq⟩
  rcases Array.mem_push.mp hother with hold | rfl
  · obtain ⟨hbound, hbody⟩ := hsound.functions other hold
    exact ⟨hbound.extends hgrows, hbody.extends hgrows⟩
  · exact ⟨hbound.extends hgrows, hbody.extends hgrows⟩

theorem holds_addFunction :
    (store.addFunction function).Holds
      (.function (store.heap.addFunction function).1) := by
  simp [Holds, addFunction, Heap.addFunction]

theorem extends_markSealed (id : FrameId) : store.Extends (store.markSealed id) :=
  ⟨Nat.le_refl _, List.prefix_rfl, List.suffix_cons id store.sealed,
    fun _ _ => rfl, fun _ _ hbehind => hbehind,
    fun hnumbered => ⟨hnumbered.1, hnumbered.2⟩⟩

/-- A frame can be sealed once, whatever it holds by then. -/
theorem Sound.markSealed {id : FrameId} (hsound : store.Sound programs)
    (hlt : id < store.heap.frames.size) (hnot : id ∉ store.sealed) :
    (store.markSealed id).Sound programs := by
  have hextends : store.Extends (store.markSealed id) :=
    extends_markSealed id
  refine ⟨fun other => (hsound.frames other).extends hextends,
    fun function hfunction => ?_, fun other hother => ?_,
    List.nodup_cons.mpr ⟨hnot, hsound.nodup⟩,
    ⟨(hsound.frames id).mono fun _ hvalue => hvalue.unfollowed,
      hsound.layered⟩⟩
  · obtain ⟨hbound, hbody⟩ := hsound.functions function hfunction
    exact ⟨hbound.extends hextends, hbody.extends hextends⟩
  · rcases List.mem_cons.mp hother with rfl | hold
    · exact hlt
    · exact hsound.sealed_lt other hold

/-- Sealing a frame that is newer than a store is growth of that store. -/
theorem Grows.markSealed {id : FrameId} (hgrows : before.Grows after)
    (hnew : before.heap.frames.size ≤ id) : before.Grows (after.markSealed id) := by
  refine { hgrows.toExtends.trans (extends_markSealed id) with
    sealed_new := fun other hother hnot => ?_ }
  rcases List.mem_cons.mp hother with rfl | hold
  · exact hnew
  · exact hgrows.sealed_new other hold hnot

/-- A new link has a number of its own. -/
theorem grows_addLink (frame : FrameId) (chain : Chain) :
    store.Grows (store.addLink frame chain) := by
  refine ⟨⟨Nat.le_refl _, List.prefix_rfl, List.suffix_rfl, fun _ _ => rfl,
    fun _ _ => .inl, fun hnumbered => ?_⟩, fun _ hid hnot => absurd hid hnot⟩
  have hfresh : ∀ {link outer}, store.behind link outer →
      link.number ≠ store.heap.nextLink :=
    fun hbehind => Nat.ne_of_lt (hnumbered.number_lt hbehind)
  constructor
  · rintro link outer (hold | hnew)
    · exact Nat.lt_succ_of_lt (hnumbered.number_lt hold)
    · rw [(List.cons.inj hnew).1]
      exact Nat.lt_succ_self _
  · rintro link other outer outer' (hold | hnew) (hold' | hnew') hnumber
    · exact hnumbered.eq_of_number hold hold' hnumber
    · rw [(List.cons.inj hnew').1] at hnumber
      exact absurd hnumber (hfresh hold)
    · rw [(List.cons.inj hnew).1] at hnumber
      exact absurd hnumber.symm (hfresh hold')
    · exact List.cons.inj (hnew.trans hnew'.symm)

theorem Sound.addLink (hsound : store.Sound programs) (frame : FrameId)
    (chain : Chain) : (store.addLink frame chain).Sound programs := by
  have hextends : store.Extends (store.addLink frame chain) :=
    (grows_addLink frame chain).toExtends
  refine ⟨fun id => (hsound.frames id).extends hextends,
    fun function hfunction => ?_, hsound.sealed_lt, hsound.nodup,
    hsound.layered.congr (Nat.le_refl _) fun _ _ => rfl⟩
  obtain ⟨hbound, hbody⟩ := hsound.functions function hfunction
  exact ⟨hbound.extends hextends, hbody.extends hextends⟩

theorem Follows.addLink {chain : Chain} (hchain : store.Follows chain)
    (frame : FrameId) :
    (store.addLink frame chain).Follows (store.heap.push frame chain).1 := by
  intro link outer hpart
  rcases List.suffix_cons_iff.mp hpart with hall | hpart
  · exact .inr hall
  · exact .inl (hchain link outer hpart)

theorem heap_addLinks (frames : List FrameId) (base : Chain) :
    (store.addLinks frames base).heap = (store.heap.pushAll frames base).2 := by
  induction frames with
  | nil => rfl
  | cons frame outer ih =>
      exact congrArg (fun heap : Heap => (heap.push frame _).2) ih

theorem grows_addLinks (frames : List FrameId) (base : Chain) :
    store.Grows (store.addLinks frames base) := by
  induction frames with
  | nil => exact .refl store
  | cons frame outer ih => exact ih.trans (grows_addLink _ _)

theorem Sound.addLinks (hsound : store.Sound programs) (frames : List FrameId)
    (base : Chain) : (store.addLinks frames base).Sound programs := by
  induction frames with
  | nil => exact hsound
  | cons frame outer ih => exact ih.addLink _ _

theorem Follows.addLinks {base : Chain} (hbase : store.Follows base)
    (frames : List FrameId) :
    (store.addLinks frames base).Follows
      (store.heap.pushAll frames base).1 := by
  induction frames with
  | nil => exact hbase
  | cons frame outer ih =>
      have hpushed := ih.addLink frame
      rw [heap_addLinks] at hpushed
      exact hpushed

theorem sealed_addLinks (frames : List FrameId) (base : Chain) :
    (store.addLinks frames base).sealed = store.sealed := by
  induction frames with
  | nil => rfl
  | cons frame outer ih => exact ih

end Adding

/-- Binding a key in a frame that is not sealed. -/
theorem Sound.setInFrame {id : FrameId} {value : Value}
    (hsound : store.Sound programs) (hnot : id ∉ store.sealed) (key : Key)
    (hvalue : store.Holds value) :
    ∃ after : Store, after.heap = store.heap.setInFrame id key value ∧
      after.Sound programs ∧ store.Grows after := by
  let written : Store :=
    { store with heap := store.heap.setInFrame id key value }
  have hsize := store.heap.size_frames_setInFrame id key value
  have hsame : ∀ other ∈ store.sealed,
      (store.heap.setInFrame id key value).frame other =
        store.heap.frame other := by
    intro other hother
    apply store.heap.frame_setInFrame_of_ne key value
    rintro rfl
    exact hnot hother
  have hgrows : store.Grows written :=
    ⟨⟨Nat.le_of_eq hsize.symm, List.prefix_rfl, List.suffix_rfl, hsame,
      fun _ _ hbehind => hbehind, fun hnumbered => ⟨hnumbered.1, hnumbered.2⟩⟩,
      fun _ hid hnot => absurd hid hnot⟩
  refine ⟨written, rfl, ⟨fun other => ?_, fun function hfunction => ?_,
    fun other hother => ?_, hsound.nodup,
    hsound.layered.congr (Nat.le_refl _) hsame⟩, hgrows⟩
  · refine HoldsAll.extends ?_ hgrows.toExtends
    change store.HoldsAll ((store.heap.setInFrame id key value).frame other)
    rw [store.heap.frame_setInFrame]
    split
    · exact Container.All.set (hsound.frames other) key hvalue
    · exact hsound.frames other
  · obtain ⟨hbound, hbody⟩ := hsound.functions function hfunction
    exact ⟨hbound.extends hgrows.toExtends, hbody.extends hgrows.toExtends⟩
  · change other < (store.heap.setInFrame id key value).frames.size
    rw [hsize]
    exact hsound.sealed_lt other hother

/-- A new frame on top of a scope makes the scope open. -/
theorem Sound.pushNew {chain : Chain} {content : Container Value}
    (hsound : store.Sound programs) (hcontent : store.HoldsAll content)
    (hchain : store.Reaches chain) :
    ∃ after : Store, after.heap = (store.heap.pushNew content chain).2 ∧
      after.Sound programs ∧ store.Grows after ∧
      after.Open (store.heap.pushNew content chain).1 := by
  let own := store.heap.frames.size
  let after : Store := (store.addFrame content).addLink own chain
  have hgrows : store.Grows after :=
    hsound.grows_addFrame.trans (grows_addLink own chain)
  refine ⟨after, rfl, (hsound.addFrame hcontent).addLink own chain, hgrows,
    ?_, ?_⟩
  · intro frame hin
    rcases List.mem_cons.mp hin with rfl | hold
    · simp [after, Store.addLink, Store.addFrame, Heap.addFrame, Heap.push]
    · exact (hchain.extends hgrows.toExtends) frame hold
  · refine ⟨_, chain, rfl, fun hsealed => ?_⟩
    exact Nat.lt_irrefl _ (hsound.sealed_lt _ hsealed)

/-- The frame of a new array is sealed at once. -/
theorem Sound.addArray {content : Container Value}
    (hsound : store.Sound programs) (hcontent : store.HoldsAll content) :
    ∃ after : Store, after.heap = (store.heap.addArray content).2 ∧
      after.Sound programs ∧ store.Grows after ∧
      after.Holds (store.heap.addArray content).1 := by
  let own := store.heap.frames.size
  have hframe := hsound.addFrame hcontent
  have hlt : own < (store.addFrame content).heap.frames.size := by
    simp [own, Store.addFrame, Heap.addFrame]
  have hnot : own ∉ (store.addFrame content).sealed :=
    fun hsealed => Nat.lt_irrefl _ (hsound.sealed_lt _ hsealed)
  let sealed := (store.addFrame content).markSealed own
  have hsealed : sealed.Sound programs := hframe.markSealed hlt hnot
  have hgrows : store.Grows sealed :=
    hsound.grows_addFrame.markSealed (Nat.le_refl _)
  have hnone : sealed.Follows [] := fun _ _ hpart =>
    absurd (List.suffix_nil.mp hpart) (List.cons_ne_nil _ _)
  refine ⟨sealed.addLink own [], rfl, hsealed.addLink own [],
    hgrows.trans (grows_addLink own []), fun frame hin => ?_,
    hnone.addLink own⟩
  rw [List.mem_singleton.mp hin]
  exact List.mem_cons_self

/-- Stacking makes links only. -/
theorem stack_eq (heap : Heap) (top base : Chain) :
    (heap.stack top base).2.frames = heap.frames ∧
      (heap.stack top base).2.functions = heap.functions := by
  unfold Heap.stack
  induction top.frames with
  | nil => exact ⟨rfl, rfl⟩
  | cons frame outer ih => exact ih

/-- A new frame on top of an array and a scope makes an open scope. -/
theorem Sound.pushOwn {parent outer : Chain} (hsound : store.Sound programs)
    (hparent : store.Holds (.array parent)) (houter : store.Reaches outer) :
    let own := store.heap.addFrame .empty
    let stacked := own.2.stack parent outer
    ∃ after : Store, after.heap = (stacked.2.push own.1 stacked.1).2 ∧
      after.Sound programs ∧ store.Grows after ∧
      after.Open (stacked.2.push own.1 stacked.1).1 := by
  intro own stacked
  let linked := (store.addFrame .empty).addLinks parent.frames outer
  let after := linked.addLink own.1 stacked.1
  have hlinked : linked.heap = stacked.2 := heap_addLinks _ _
  have hsound' : (store.addFrame .empty).Sound programs :=
    hsound.addFrame Container.all_empty
  have hgrows : store.Grows after := (hsound.grows_addFrame.trans
    (grows_addLinks _ _)).trans (grows_addLink _ _)
  have hheap : after.heap = (stacked.2.push own.1 stacked.1).2 :=
    congrArg (fun heap : Heap => (heap.push own.1 stacked.1).2) hlinked
  refine ⟨after, hheap, (hsound'.addLinks _ _).addLink _ _, hgrows, ?_, ?_⟩
  · intro frame hin
    rcases List.mem_cons.mp hin with rfl | hrest
    · change store.heap.frames.size < after.heap.frames.size
      have hsize : after.heap.frames = own.2.frames :=
        (congrArg Heap.frames hheap).trans (stack_eq own.2 parent outer).1
      simp [hsize, own, Heap.addFrame]
    · have hstacked : frame ∈ Chain.frames stacked.1 := hrest
      rw [Heap.stack_frames] at hstacked
      rcases List.mem_append.mp hstacked with hin | hin
      · exact Nat.lt_of_lt_of_le (hsound.sealed_lt frame (hparent.1 frame hin))
          hgrows.frames_le
      · exact (houter.extends hgrows.toExtends) frame hin
  · refine ⟨_, stacked.1, rfl, fun hsealed => ?_⟩
    change store.heap.frames.size ∈ linked.sealed at hsealed
    rw [sealed_addLinks] at hsealed
    exact Nat.lt_irrefl _ (hsound.sealed_lt _ hsealed)

theorem Sound.compose {left right value : Value} {heap : Heap}
    (hsound : store.Sound programs) (hleft : store.Holds left)
    (hright : store.Holds right)
    (hcompose : store.heap.compose left right = .ok (value, heap)) :
    ∃ after : Store, after.heap = heap ∧ after.Sound programs ∧
      store.Grows after ∧ after.Holds value := by
  unfold Heap.compose at hcompose
  split at hcompose
  · next base specific =>
      simp only [Except.ok.injEq, Prod.mk.injEq] at hcompose
      obtain ⟨rfl, rfl⟩ := hcompose
      refine ⟨store.addLinks specific.frames base, heap_addLinks _ _,
        hsound.addLinks _ _, grows_addLinks _ _, fun frame hin => ?_,
        hleft.2.addLinks _⟩
      rw [sealed_addLinks]
      rw [Heap.stack_frames] at hin
      rcases List.mem_append.mp hin with hspecific | hbase
      · exact hright.1 frame hspecific
      · exact hleft.1 frame hbase
  · next id args =>
      simp only [Except.ok.injEq, Prod.mk.injEq] at hcompose
      obtain ⟨rfl, rfl⟩ := hcompose
      obtain ⟨function, hfunction⟩ := hleft.function?
      obtain ⟨hbound, hbody⟩ := hsound.function hfunction
      have hargs := hsound.holdsAll_flatten args
      have hbind : store.heap.bindFunction id (store.heap.flatten args) =
          store.heap.addFunction
            (function.withBound (store.heap.flatten args)) := by
        simp only [Heap.bindFunction, hfunction]
      rw [hbind]
      exact ⟨store.addFunction _, rfl,
        hsound.addFunction (Container.All.expand hbound hargs) hbody,
        grows_addFunction, holds_addFunction⟩
  · cases hcompose

end Store

end ChainScript
