import ChainScript.Proofs.FairHosts

/-
Heaps that differ in one global.

The frame of the globals is part of no array, so only code that has it in its
scope can look into it, and that is the code of one program.  Two heaps are
alike if they agree on everything but what one name stands for in this frame.
Operations on such heaps give the same values and leave such heaps behind.
-/

namespace ChainScript

/-- The array does not have the frame; other values have no frames. -/
def Value.Avoids (frame : FrameId) : Value → Prop
  | .array chain => frame ∉ chain.frames
  | _ => True

/-- A name in the frame of the globals, and the program whose code has this
frame in its scope. -/
structure Extra where
  name : String
  frame : FrameId
  program : Nat

namespace Extra

variable (extra : Extra)

/-- The value tells nothing about the frame. -/
abbrev Clear (value : Value) : Prop :=
  value.Avoids extra.frame

/-- A scope of a program which has the frame only if it may. -/
def Admits (number : Nat) (scope : Chain) : Prop :=
  extra.frame ∈ scope.frames → number = extra.program

def AdmitsBody : FunctionBody → Prop
  | .script number _ captured => extra.Admits number captured
  | .native => True

/-- Heaps that agree but for the name, and in which no array has the frame. -/
structure Twins (left right : Heap) : Prop where
  frame_lt : extra.frame < left.frames.size
  frames : ∀ id, (left.frame id).All extra.Clear
  bound : ∀ function ∈ left.functions, function.bound.All extra.Clear
  bodies : ∀ function ∈ left.functions, extra.AdmitsBody function.body
  size_eq : right.frames.size = left.frames.size
  functions_eq : right.functions = left.functions
  nextLink_eq : right.nextLink = left.nextLink
  frame_eq : ∀ id, id ≠ extra.frame → right.frame id = left.frame id
  get?_eq : ∀ key, key ≠ .badge extra.name →
    (right.frame extra.frame).get? key = (left.frame extra.frame).get? key

variable {extra} {left right : Heap} {α : Type}

namespace Twins

section Reading

variable (htwins : extra.Twins left right)

include htwins

theorem function?_eq (id : FunctionId) :
    right.function? id = left.function? id := by
  rw [Heap.function?, Heap.function?, htwins.functions_eq]

theorem depthBound_eq : right.depthBound = left.depthBound := by
  rw [Heap.depthBound, Heap.depthBound, htwins.size_eq]

theorem mergeFrames_eq {frames : List FrameId} (havoids : extra.frame ∉ frames) :
    right.mergeFrames frames = left.mergeFrames frames := by
  induction frames with
  | nil => rfl
  | cons frame outer ih =>
      have hne := List.ne_of_not_mem_cons havoids
      rw [Heap.mergeFrames, Heap.mergeFrames,
        ih (List.not_mem_of_not_mem_cons havoids),
        htwins.frame_eq frame hne.symm]

theorem flatten_eq {chain : Chain} (hchain : extra.Clear (.array chain)) :
    right.flatten chain = left.flatten chain :=
  htwins.mergeFrames_eq hchain

theorem flatten_clear (chain : Chain) :
    (left.flatten chain).All extra.Clear :=
  Heap.all_mergeFrames fun id _ => htwins.frames id

/-- Only code that may ask for the name can tell the heaps apart. -/
theorem lookup?_eq {chain : Chain} {key : Key}
    (hkey : extra.frame ∈ chain.frames → key ≠ .badge extra.name) :
    right.lookup? chain key = left.lookup? chain key := by
  suffices hresolve : ∀ frames : List FrameId,
      (extra.frame ∈ frames → key ≠ .badge extra.name) →
        right.resolveIn key frames = left.resolveIn key frames from
    congrArg (Option.map Prod.fst) (hresolve chain.frames hkey)
  intro frames hframes
  induction frames with
  | nil => rfl
  | cons frame outer ih =>
      have hframe : (right.frame frame).get? key =
          (left.frame frame).get? key := by
        by_cases heq : frame = extra.frame
        · subst heq
          exact htwins.get?_eq key (hframes List.mem_cons_self)
        · rw [htwins.frame_eq frame heq]
      rw [Heap.resolveIn, Heap.resolveIn, hframe,
        ih fun houter => hframes (List.mem_cons_of_mem _ houter)]

theorem lookup?_clear {chain : Chain} {key : Key} {value : Value}
    (hvalue : left.lookup? chain key = some value) : extra.Clear value := by
  obtain ⟨found, hfound, rfl⟩ := Option.map_eq_some_iff.mp hvalue
  exact Heap.all_resolveIn (fun id _ => htwins.frames id) hfound

end Reading

section Values

variable (htwins : extra.Twins left right)

include htwins

theorem textTo?_eq (depth : Nat) (nested : Bool) {value : Value}
    (hvalue : extra.Clear value) :
    right.textTo? depth nested value = left.textTo? depth nested value := by
  induction depth generalizing nested value with
  | zero =>
      cases value with
      | function id =>
          rw [Heap.textTo?, Heap.textTo?, htwins.function?_eq]
      | _ => rfl
  | succ depth ih =>
      cases value with
      | function id =>
          rw [Heap.textTo?, Heap.textTo?, htwins.function?_eq]
      | array chain =>
          rw [Heap.textTo?, Heap.textTo?, htwins.flatten_eq hvalue]
          rw [entryTexts?_congr fun entry hentry =>
            ih true (htwins.flatten_clear chain entry hentry)]
      | _ => rfl

theorem text?_eq {value : Value} (hvalue : extra.Clear value) :
    right.text? value = left.text? value := by
  rw [Heap.text?, Heap.text?, htwins.depthBound_eq]
  exact htwins.textTo?_eq _ _ hvalue

theorem equalTo?_eq (depth : Nat) {one other : Value}
    (hone : extra.Clear one) (hother : extra.Clear other) :
    right.equalTo? depth one other = left.equalTo? depth one other := by
  induction depth generalizing one other with
  | zero => cases one <;> cases other <;> rfl
  | succ depth ih =>
      cases one with
      | array chain =>
          cases other with
          | array chain' =>
              rw [Heap.equalTo?, Heap.equalTo?, htwins.flatten_eq hone,
                htwins.flatten_eq hother]
              exact entriesAgree?_congr fun entry hentry other hother =>
                ih (htwins.flatten_clear chain entry hentry)
                  (htwins.flatten_clear chain' other hother)
          | _ => rfl
      | _ => cases other <;> rfl

theorem binary_eq (op : BinaryOp) {one other : Value}
    (hone : extra.Clear one) (hother : extra.Clear other) :
    right.binary op one other = left.binary op one other := by
  have hequal : right.equal? one other = left.equal? one other := by
    rw [Heap.equal?, Heap.equal?, htwins.depthBound_eq]
    exact htwins.equalTo?_eq _ hone hother
  unfold Heap.binary
  split <;> first | rfl | rw [hequal]

end Values

theorem stack_clear {top base : Chain} (htop : extra.Clear (.array top))
    (hbase : extra.Clear (.array base)) (heap : Heap) :
    extra.Clear (.array (heap.stack top base).1) := by
  change extra.frame ∉ Chain.frames _
  rw [Heap.stack_frames]
  exact List.not_mem_append htop hbase

section Changing

variable (htwins : extra.Twins left right)

include htwins

theorem of_frames_eq {other other' : Heap} (hframes : other.frames = left.frames)
    (hfunctions : other.functions = left.functions)
    (hframes' : other'.frames = right.frames)
    (hfunctions' : other'.functions = right.functions)
    (hlink : other'.nextLink = other.nextLink) : extra.Twins other other' := by
  obtain ⟨frames, functions, next⟩ := left
  obtain ⟨frames', functions', next'⟩ := right
  obtain ⟨_, _, _⟩ := other
  obtain ⟨_, _, _⟩ := other'
  cases hframes
  cases hfunctions
  cases hframes'
  cases hfunctions'
  exact { htwins with nextLink_eq := hlink }

theorem push (frame : FrameId) (chain : Chain) :
    (right.push frame chain).1 = (left.push frame chain).1 ∧
      extra.Twins (left.push frame chain).2 (right.push frame chain).2 :=
  ⟨congrArg (fun number => Link.mk number frame :: chain) htwins.nextLink_eq,
    htwins.of_frames_eq rfl rfl rfl rfl
      (congrArg (· + 1) htwins.nextLink_eq)⟩

theorem pushAll (frames : List FrameId) (base : Chain) :
    (right.pushAll frames base).1 = (left.pushAll frames base).1 ∧
      extra.Twins (left.pushAll frames base).2
        (right.pushAll frames base).2 := by
  induction frames with
  | nil => exact ⟨rfl, htwins⟩
  | cons frame outer ih =>
      obtain ⟨hchain, htwins⟩ := ih
      simp only [Heap.pushAll, hchain]
      exact htwins.push frame _

theorem addFrame {content : Container Value}
    (hcontent : content.All extra.Clear) :
    (right.addFrame content).1 = (left.addFrame content).1 ∧
      extra.Twins (left.addFrame content).2 (right.addFrame content).2 := by
  refine ⟨htwins.size_eq, ?_⟩
  have hold := left.frame_addFrame content
  have hnew := right.frame_addFrame content
  rw [htwins.size_eq] at hnew
  have hother : ¬ extra.frame = left.frames.size := Nat.ne_of_lt htwins.frame_lt
  refine
    { frame_lt := ?_
      frames := fun id => ?_
      bound := htwins.bound
      bodies := htwins.bodies
      size_eq := by simp [Heap.addFrame, htwins.size_eq]
      functions_eq := htwins.functions_eq
      nextLink_eq := htwins.nextLink_eq
      frame_eq := fun id hid => ?_
      get?_eq := fun key hkey => ?_ }
  · simpa [Heap.addFrame] using Nat.lt_succ_of_lt htwins.frame_lt
  · rw [hold]
    split
    · exact hcontent
    · exact htwins.frames id
  · rw [hold, hnew, htwins.frame_eq id hid]
  · rw [hold, hnew, if_neg hother, if_neg hother]
    exact htwins.get?_eq key hkey

theorem addFunction (function : Function)
    (hbound : function.bound.All extra.Clear)
    (hbody : extra.AdmitsBody function.body) :
    (right.addFunction function).1 = (left.addFunction function).1 ∧
      extra.Twins (left.addFunction function).2
        (right.addFunction function).2 := by
  have hfunctions := htwins.functions_eq
  refine ⟨congrArg Array.size hfunctions, { htwins with
    bound := fun other hother => ?_
    bodies := fun other hother => ?_
    functions_eq := congrArg (Array.push · function) hfunctions }⟩
  · rcases Array.mem_push.mp hother with hold | rfl
    · exact htwins.bound other hold
    · exact hbound
  · rcases Array.mem_push.mp hother with hold | rfl
    · exact htwins.bodies other hold
    · exact hbody

theorem pushNew {content : Container Value}
    (hcontent : content.All extra.Clear) (chain : Chain) :
    (right.pushNew content chain).1 = (left.pushNew content chain).1 ∧
      extra.Twins (left.pushNew content chain).2
        (right.pushNew content chain).2 := by
  obtain ⟨hframe, hadded⟩ := htwins.addFrame hcontent
  rw [Heap.pushNew, Heap.pushNew]
  simp only [hframe]
  exact hadded.push _ chain

theorem addArray {content : Container Value}
    (hcontent : content.All extra.Clear) :
    (right.addArray content).1 = (left.addArray content).1 ∧
      extra.Twins (left.addArray content).2 (right.addArray content).2 ∧
      extra.Clear (left.addArray content).1 := by
  obtain ⟨hchain, hpushed⟩ := htwins.pushNew hcontent []
  refine ⟨congrArg Value.array hchain, hpushed, fun hframe => ?_⟩
  exact Nat.ne_of_lt htwins.frame_lt (List.mem_singleton.mp hframe)

theorem setInFrame (id : FrameId) (key : Key) {value : Value}
    (hvalue : extra.Clear value) :
    extra.Twins (left.setInFrame id key value)
      (right.setInFrame id key value) := by
  have hsize : ∀ heap : Heap,
      (heap.setInFrame id key value).frames.size = heap.frames.size :=
    fun heap => heap.size_frames_setInFrame id key value
  have hframe : ∀ (heap : Heap) (other : FrameId), _ :=
    fun heap other => heap.frame_setInFrame id other key value
  refine
    { frame_lt := (hsize left).symm ▸ htwins.frame_lt
      frames := fun other => ?_
      bound := htwins.bound
      bodies := htwins.bodies
      size_eq := by rw [hsize, hsize, htwins.size_eq]
      functions_eq := htwins.functions_eq
      nextLink_eq := htwins.nextLink_eq
      frame_eq := fun other hother => ?_
      get?_eq := fun other hother => ?_ }
  · rw [hframe]
    split
    · exact (htwins.frames other).set key hvalue
    · exact htwins.frames other
  · rw [hframe, hframe, htwins.size_eq, htwins.frame_eq other hother]
  · rw [hframe, hframe, htwins.size_eq]
    split
    · exact Container.get?_set_congr (htwins.get?_eq other hother) key value
    · exact htwins.get?_eq other hother

theorem bind (scope : Chain) (key : Key) {value : Value}
    (hvalue : extra.Clear value) :
    (right.bind scope key value).1 = (left.bind scope key value).1 ∧
      extra.Twins (left.bind scope key value).2
        (right.bind scope key value).2 := by
  cases scope with
  | nil => exact htwins.pushNew (Container.all_empty.set key hvalue) []
  | cons link outer => exact ⟨rfl, htwins.setInFrame link.frame key hvalue⟩

theorem bindFunction (id : FunctionId) {args : Container Value}
    (hargs : args.All extra.Clear) :
    (right.bindFunction id args).1 = (left.bindFunction id args).1 ∧
      extra.Twins (left.bindFunction id args).2
        (right.bindFunction id args).2 := by
  unfold Heap.bindFunction
  rw [htwins.function?_eq]
  cases hfunction : left.function? id with
  | none => exact ⟨rfl, htwins⟩
  | some function =>
      have hmem := Array.mem_of_getElem? hfunction
      exact htwins.addFunction _ ((htwins.bound function hmem).expand hargs)
        (htwins.bodies function hmem)

/-- Two values that compose in neither heap, or compose to the same one. -/
theorem compose {one other : Value} (hone : extra.Clear one)
    (hother : extra.Clear other) :
    (∃ cause, left.compose one other = .error cause ∧
      right.compose one other = .error cause) ∨
    ∃ value heap heap', left.compose one other = .ok (value, heap) ∧
      right.compose one other = .ok (value, heap') ∧
      extra.Twins heap heap' ∧ extra.Clear value := by
  cases other with
  | array args =>
      cases one with
      | array base =>
          obtain ⟨hchain, hstacked⟩ := htwins.pushAll args.frames base
          exact .inr ⟨_, _, _, rfl, congrArg (fun chain => Except.ok
            (Value.array chain, (right.stack args base).2)) hchain, hstacked,
            stack_clear hother hone left⟩
      | function id =>
          have hargs := htwins.flatten_eq hother
          obtain ⟨hid, hbound⟩ :=
            htwins.bindFunction id (htwins.flatten_clear args)
          refine .inr ⟨_, _, _, rfl, ?_, hbound, trivial⟩
          rw [Heap.compose, hargs]
          exact congrArg (fun id => Except.ok
            (Value.function id, (right.bindFunction _ _).2)) hid
      | _ => exact .inl ⟨_, rfl, rfl⟩
  | _ => cases one <;> exact .inl ⟨_, rfl, rfl⟩

end Changing

end Twins

end Extra

end ChainScript
