import ChainScript.Proofs.Store
import Mathlib.Data.List.Perm.Subperm

/-
What depends on the frames of an array alone: looking keys up, merging,
display and equality.

Display and equality follow the arrays inside an array.  The layers of sealed
frames bound how deep that goes, so both always have an answer, and the answer
stays the same as long as the sealed frames do.
-/

namespace ChainScript

namespace Heap

variable {heap other : Heap} {frames : List FrameId}

theorem resolveIn_congr
    (hframes : ∀ id ∈ frames, other.frame id = heap.frame id) (key : Key) :
    other.resolveIn key frames = heap.resolveIn key frames := by
  induction frames with
  | nil => rfl
  | cons frame outer ih =>
      have hrest := ih fun id hid => hframes id (List.mem_cons_of_mem _ hid)
      simp only [resolveIn, hframes frame List.mem_cons_self, hrest]

theorem mergeFrames_congr
    (hframes : ∀ id ∈ frames, other.frame id = heap.frame id) :
    other.mergeFrames frames = heap.mergeFrames frames := by
  induction frames with
  | nil => rfl
  | cons frame outer ih =>
      have hrest := ih fun id hid => hframes id (List.mem_cons_of_mem _ hid)
      simp only [mergeFrames, hframes frame List.mem_cons_self, hrest]

end Heap

/-- Two ways to write values that agree on all values of some entries. -/
theorem entryTexts?_congr {write? write?' : Value → Option String}
    {entries : List (Key × Value)}
    (hsame : ∀ entry ∈ entries, write?' entry.2 = write? entry.2)
    (expected : Nat) :
    entryTexts? write?' expected entries =
      entryTexts? write? expected entries := by
  induction entries generalizing expected with
  | nil => rfl
  | cons entry rest ih =>
      obtain ⟨key, value⟩ := entry
      have hfirst : write?' value = write? value :=
        hsame (key, value) List.mem_cons_self
      have hrest := ih (fun other hother =>
        hsame other (List.mem_cons_of_mem _ hother)) (expectedAfter expected key)
      rw [entryTexts?, entryTexts?, hfirst, hrest]

theorem entryTexts?_isSome {write? : Value → Option String}
    {entries : List (Key × Value)}
    (hwrite : ∀ entry ∈ entries, (write? entry.2).isSome) (expected : Nat) :
    (entryTexts? write? expected entries).isSome := by
  induction entries generalizing expected with
  | nil => rfl
  | cons entry rest ih =>
      obtain ⟨key, value⟩ := entry
      obtain ⟨text, htext⟩ : ∃ text, write? value = some text :=
        Option.isSome_iff_exists.mp (hwrite (key, value) List.mem_cons_self)
      obtain ⟨texts, htexts⟩ := Option.isSome_iff_exists.mp
        (ih (fun other hother => hwrite other (List.mem_cons_of_mem _ hother))
          (expectedAfter expected key))
      simp [entryTexts?, htext, htexts]

/-- Two ways to compare values that agree on all values of some entries. -/
theorem entriesAgree?_congr {agree? agree?' : Value → Value → Option Bool}
    {left right : List (Key × Value)}
    (hsame : ∀ first ∈ left, ∀ second ∈ right,
      agree?' first.2 second.2 = agree? first.2 second.2) :
    entriesAgree? agree?' left right = entriesAgree? agree? left right := by
  induction left generalizing right with
  | nil => cases right <;> rfl
  | cons first leftRest ih =>
      cases right with
      | nil => rfl
      | cons second rightRest =>
          obtain ⟨leftKey, leftValue⟩ := first
          obtain ⟨rightKey, rightValue⟩ := second
          have hfirst : agree?' leftValue rightValue =
              agree? leftValue rightValue :=
            hsame _ List.mem_cons_self _ List.mem_cons_self
          have hrest : entriesAgree? agree?' leftRest rightRest =
              entriesAgree? agree? leftRest rightRest :=
            ih fun one hone two htwo => hsame one (List.mem_cons_of_mem _ hone)
              two (List.mem_cons_of_mem _ htwo)
          rw [entriesAgree?, entriesAgree?, hfirst, hrest]

theorem entriesAgree?_isSome {agree? : Value → Value → Option Bool}
    {left right : List (Key × Value)}
    (hagree : ∀ first ∈ left, ∀ second ∈ right,
      (agree? first.2 second.2).isSome) :
    (entriesAgree? agree? left right).isSome := by
  induction left generalizing right with
  | nil => cases right <;> rfl
  | cons first leftRest ih =>
      cases right with
      | nil => rfl
      | cons second rightRest =>
          obtain ⟨leftKey, leftValue⟩ := first
          obtain ⟨rightKey, rightValue⟩ := second
          obtain ⟨agrees, hagrees⟩ :
              ∃ agrees, agree? leftValue rightValue = some agrees :=
            Option.isSome_iff_exists.mp
              (hagree _ List.mem_cons_self _ List.mem_cons_self)
          have hrest := ih fun one hone two htwo =>
            hagree one (List.mem_cons_of_mem _ hone) two
              (List.mem_cons_of_mem _ htwo)
          rw [entriesAgree?]
          by_cases hkey : leftKey = rightKey
          · cases agrees <;> simp [hkey, hagrees, hrest]
          · simp [hkey]

namespace Store

variable {heap other : Heap} {sealed : List FrameId}

/-- Each layer holds the values of its own frames. -/
private theorem Layered.holdsAll (hlayered : Layered heap sealed) :
    ∀ id ∈ sealed, HoldsAll { heap, sealed := sealed.tail } (heap.frame id) := by
  induction sealed with
  | nil => exact fun _ hid => absurd hid List.not_mem_nil
  | cons frame older ih =>
      intro id hid
      rcases List.mem_cons.mp hid with rfl | hold
      · exact hlayered.1
      · refine (ih hlayered.2 id hold).mono fun value hvalue => ?_
        cases value with
        | array chain =>
            exact ⟨fun frame hframe =>
              List.mem_of_mem_tail (hvalue.1 frame hframe), hvalue.2⟩
        | function id => exact hvalue
        | _ => trivial

private theorem flatten_congr
    (hframes : ∀ id ∈ sealed, other.frame id = heap.frame id) {chain : Chain}
    (hchain : Holds { heap, sealed } (.array chain)) :
    other.flatten chain = heap.flatten chain :=
  Heap.mergeFrames_congr fun id hid => hframes id (hchain.1 id hid)

/-- What an array holds is in the layers below the latest one; without layers
there is nothing to hold. -/
private theorem Layered.below (hlayered : Layered heap sealed) {chain : Chain}
    (hchain : Holds { heap, sealed } (.array chain)) :
    ∀ entry ∈ (heap.flatten chain).entries,
      ∃ frame older, sealed = frame :: older ∧
        Holds { heap, sealed := older } entry.2 := by
  intro entry hentry
  have htail : ∀ entry ∈ (heap.flatten chain).entries,
      Holds { heap, sealed := sealed.tail } entry.2 :=
    Heap.all_mergeFrames fun id hid => hlayered.holdsAll id (hchain.1 id hid)
  cases sealed with
  | nil =>
      have hnone : chain.frames = [] :=
        List.eq_nil_iff_forall_not_mem.mpr fun id hid =>
          List.not_mem_nil (hchain.1 id hid)
      rw [Heap.flatten, hnone] at hentry
      exact absurd hentry List.not_mem_nil
  | cons frame older => exact ⟨frame, older, rfl, htail entry hentry⟩

private theorem holds_function_isSome
    (hfunctions : heap.functions.toList <+: other.functions.toList)
    {id : FunctionId} (hid : Holds { heap, sealed } (.function id)) :
    (heap.function? id).isSome ∧ other.function? id = heap.function? id := by
  have hsize : id < heap.functions.size := hid
  have hlt : id < heap.functions.toList.length := by simpa using hsize
  obtain ⟨added, hadded⟩ := hfunctions
  unfold Heap.function?
  rw [← Array.getElem?_toList, ← Array.getElem?_toList, ← hadded,
    List.getElem?_append_left hlt]
  exact ⟨by simp [hsize], rfl⟩

/-- Display has an answer at every depth above the number of layers, and the
answer depends on the layers alone. -/
theorem Layered.textTo? {sealed : List FrameId} (hlayered : Layered heap sealed)
    (hframes : ∀ id ∈ sealed, other.frame id = heap.frame id)
    (hfunctions : heap.functions.toList <+: other.functions.toList)
    {depth depth' : Nat} (hdepth : sealed.length < depth)
    (hdepth' : sealed.length < depth') (nested : Bool) {value : Value}
    (hvalue : Holds { heap, sealed } value) :
    (heap.textTo? depth nested value).isSome ∧
      other.textTo? depth' nested value =
        heap.textTo? depth nested value := by
  obtain ⟨depth, rfl⟩ : ∃ below, depth = below + 1 := ⟨depth - 1, by omega⟩
  obtain ⟨depth', rfl⟩ : ∃ below, depth' = below + 1 :=
    ⟨depth' - 1, by omega⟩
  cases value with
  | array chain =>
      have hentries : ∀ entry ∈ (heap.flatten chain).entries,
          (heap.textTo? depth true entry.2).isSome ∧
            other.textTo? depth' true entry.2 =
              heap.textTo? depth true entry.2 := by
        intro entry hentry
        obtain ⟨frame, older, heq, hbelow⟩ :=
          hlayered.below hvalue entry hentry
        subst heq
        exact Layered.textTo? hlayered.2
          (fun id hid => hframes id (List.mem_cons_of_mem _ hid)) hfunctions
          (Nat.lt_of_succ_lt_succ hdepth) (Nat.lt_of_succ_lt_succ hdepth')
          true hbelow
      have hsome := entryTexts?_isSome
        (fun entry hentry => (hentries entry hentry).1) 0
      have hsame := entryTexts?_congr
        (fun entry hentry => (hentries entry hentry).2) 0
      obtain ⟨texts, htexts⟩ := Option.isSome_iff_exists.mp hsome
      rw [htexts] at hsame
      simp [Heap.textTo?, flatten_congr hframes hvalue, htexts, hsame]
  | function id =>
      obtain ⟨hsome, hsame⟩ := holds_function_isSome hfunctions hvalue
      simp [Heap.textTo?, hsome, hsame]
  | _ => simp [Heap.textTo?]
termination_by sealed.length
decreasing_by simp [heq]

/-- The same for equality in scripts. -/
theorem Layered.equalTo? {sealed : List FrameId} (hlayered : Layered heap sealed)
    (hframes : ∀ id ∈ sealed, other.frame id = heap.frame id)
    {depth depth' : Nat} (hdepth : sealed.length < depth)
    (hdepth' : sealed.length < depth') {left right : Value}
    (hleft : Holds { heap, sealed } left)
    (hright : Holds { heap, sealed } right) :
    (heap.equalTo? depth left right).isSome ∧
      other.equalTo? depth' left right = heap.equalTo? depth left right := by
  obtain ⟨depth, rfl⟩ : ∃ below, depth = below + 1 := ⟨depth - 1, by omega⟩
  obtain ⟨depth', rfl⟩ : ∃ below, depth' = below + 1 :=
    ⟨depth' - 1, by omega⟩
  cases left <;> cases right
  case array.array left right =>
    have hentries : ∀ first ∈ (heap.flatten left).entries,
        ∀ second ∈ (heap.flatten right).entries,
          (heap.equalTo? depth first.2 second.2).isSome ∧
            other.equalTo? depth' first.2 second.2 =
              heap.equalTo? depth first.2 second.2 := by
      intro first hfirst second hsecond
      obtain ⟨frame, older, heq, hone⟩ := hlayered.below hleft first hfirst
      obtain ⟨_, _, heq', htwo⟩ := hlayered.below hright second hsecond
      subst heq
      cases heq'
      exact Layered.equalTo? hlayered.2
        (fun id hid => hframes id (List.mem_cons_of_mem _ hid))
        (Nat.lt_of_succ_lt_succ hdepth) (Nat.lt_of_succ_lt_succ hdepth')
        hone htwo
    simp only [Heap.equalTo?, flatten_congr hframes hleft,
      flatten_congr hframes hright]
    exact
      ⟨entriesAgree?_isSome fun one hone two htwo => (hentries one hone two htwo).1,
        entriesAgree?_congr fun one hone two htwo => (hentries one hone two htwo).2⟩
  all_goals simp [Heap.equalTo?]
termination_by sealed.length
decreasing_by simp [heq]

/-- The same for strict equality. -/
theorem Layered.sameTo? {sealed : List FrameId} (hlayered : Layered heap sealed)
    (hframes : ∀ id ∈ sealed, other.frame id = heap.frame id)
    {depth depth' : Nat} (hdepth : sealed.length < depth)
    (hdepth' : sealed.length < depth') {left right : Value}
    (hleft : Holds { heap, sealed } left)
    (hright : Holds { heap, sealed } right) :
    (heap.sameTo? depth left right).isSome ∧
      other.sameTo? depth' left right = heap.sameTo? depth left right := by
  obtain ⟨depth, rfl⟩ : ∃ below, depth = below + 1 := ⟨depth - 1, by omega⟩
  obtain ⟨depth', rfl⟩ : ∃ below, depth' = below + 1 :=
    ⟨depth' - 1, by omega⟩
  cases left <;> cases right
  case array.array left right =>
    have hentries : ∀ first ∈ (heap.flatten left).entries,
        ∀ second ∈ (heap.flatten right).entries,
          (heap.sameTo? depth first.2 second.2).isSome ∧
            other.sameTo? depth' first.2 second.2 =
              heap.sameTo? depth first.2 second.2 := by
      intro first hfirst second hsecond
      obtain ⟨frame, older, heq, hone⟩ := hlayered.below hleft first hfirst
      obtain ⟨_, _, heq', htwo⟩ := hlayered.below hright second hsecond
      subst heq
      cases heq'
      exact Layered.sameTo? hlayered.2
        (fun id hid => hframes id (List.mem_cons_of_mem _ hid))
        (Nat.lt_of_succ_lt_succ hdepth) (Nat.lt_of_succ_lt_succ hdepth')
        hone htwo
    simp only [Heap.sameTo?, flatten_congr hframes hleft,
      flatten_congr hframes hright]
    split
    · exact ⟨rfl, rfl⟩
    · exact
        ⟨entriesAgree?_isSome fun one hone two htwo =>
            (hentries one hone two htwo).1,
          entriesAgree?_congr fun one hone two htwo =>
            (hentries one hone two htwo).2⟩
  all_goals simp [Heap.sameTo?]
termination_by sealed.length
decreasing_by simp [heq]

variable {store before after : Store} {programs : Array Program}

/-- There are no more layers than frames. -/
theorem Sound.layers_lt (hsound : store.Sound programs) :
    store.sealed.length < store.heap.depthBound := by
  have hsubset : store.sealed ⊆ List.range store.heap.frames.size :=
    fun id hid => List.mem_range.mpr (hsound.sealed_lt id hid)
  have hle := (hsound.nodup.subperm hsubset).length_le
  rw [List.length_range] at hle
  exact Nat.lt_succ_of_le hle

theorem Sound.text?_isSome (hsound : store.Sound programs) {value : Value}
    (hvalue : store.Holds value) : (store.heap.text? value).isSome :=
  (hsound.layered.textTo? (fun _ _ => rfl) List.prefix_rfl hsound.layers_lt
    hsound.layers_lt false hvalue.unfollowed).1

theorem Sound.equal?_isSome (hsound : store.Sound programs)
    {left right : Value} (hleft : store.Holds left)
    (hright : store.Holds right) : (store.heap.equal? left right).isSome :=
  (hsound.layered.equalTo? (fun _ _ => rfl) hsound.layers_lt
    hsound.layers_lt hleft.unfollowed hright.unfollowed).1

theorem Sound.same?_isSome (hsound : store.Sound programs)
    {left right : Value} (hleft : store.Holds left)
    (hright : store.Holds right) : (store.heap.same? left right).isSome :=
  (hsound.layered.sameTo? (fun _ _ => rfl) hsound.layers_lt
    hsound.layers_lt hleft.unfollowed hright.unfollowed).1

section Later

variable (hsound : before.Sound programs) (hextends : before.Extends after)

include hsound hextends

private theorem Extends.layers_lt :
    before.sealed.length < after.heap.depthBound :=
  Nat.lt_of_lt_of_le hsound.layers_lt
    (Nat.succ_le_succ hextends.frames_le)

theorem Extends.text?_eq {value : Value} (hvalue : before.Holds value) :
    after.heap.text? value = before.heap.text? value :=
  (hsound.layered.textTo? hextends.frame_eq hextends.functions
    hsound.layers_lt (hextends.layers_lt hsound) false hvalue.unfollowed).2

theorem Extends.equal?_eq {left right : Value} (hleft : before.Holds left)
    (hright : before.Holds right) :
    after.heap.equal? left right = before.heap.equal? left right :=
  (hsound.layered.equalTo? hextends.frame_eq hsound.layers_lt
    (hextends.layers_lt hsound) hleft.unfollowed hright.unfollowed).2

theorem Extends.same?_eq {left right : Value} (hleft : before.Holds left)
    (hright : before.Holds right) :
    after.heap.same? left right = before.heap.same? left right :=
  (hsound.layered.sameTo? hextends.frame_eq hsound.layers_lt
    (hextends.layers_lt hsound) hleft.unfollowed hright.unfollowed).2

end Later

end Store

end ChainScript
