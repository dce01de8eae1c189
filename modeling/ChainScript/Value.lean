import ChainScript.Container
import ChainScript.Syntax

/-
Values, and the heap that arrays and functions live in.

An array is a chain of frames, and so is a scope.  A frame is a container that
can be changed; every chain that has the frame in it sees the change.  Frames
and functions are told apart by their numbers in the heap.
-/

namespace ChainScript

/-- The number of a frame in the heap. -/
abbrev FrameId := Nat

/-- The number of a function in the heap. -/
abbrev FunctionId := Nat

/-- One element of a chain.  Pushing the same frame twice gives two links. -/
structure Link where
  number : Nat
  frame : FrameId
deriving Repr, DecidableEq

/-- Links to frames, innermost first. -/
abbrev Chain := List Link

/-- The values of scripts. -/
inductive Value where
  | null
  | bool (value : Bool)
  | int (value : Int64)
  | float (value : Float)
  | str (text : String)
  | array (chain : Chain)
  | function (id : FunctionId)
deriving Repr, DecidableEq, Inhabited

namespace Value

/-- The name of a value's kind. -/
def kindName : Value → String
  | .null => "null"
  | .bool _ => "bool"
  | .int _ => "int"
  | .float _ => "float"
  | .str _ => "str"
  | .array _ => "array"
  | .function _ => "function"

/-- The chain of an array. -/
def chain? : Value → Option Chain
  | .array chain => some chain
  | _ => none

end Value

/-- What a function runs. -/
inductive FunctionBody where
  /-- A definition, the program that it belongs to, and the scope in which the
  function was made. -/
  | script (program : Nat) (definition : FuncId) (captured : Chain)
  /-- A function of the host, known to it by the function's name. -/
  | native
deriving Repr, DecidableEq

/-- A function; the name of an anonymous one is empty.  The bound arguments are
placed before those of a call. -/
structure Function where
  name : String
  body : FunctionBody
  bound : Container Value := .empty
deriving Repr, DecidableEq

def Function.isNative (function : Function) : Bool :=
  function.body == .native

/-- The function with further arguments bound. -/
def Function.withBound (function : Function) (args : Container Value) :
    Function :=
  { function with bound := function.bound.expand args.entries }

/-- All frames and functions, and the number of the next link. -/
structure Heap where
  frames : Array (Container Value) := #[]
  functions : Array Function := #[]
  nextLink : Nat := 0
deriving Repr, DecidableEq

namespace Heap

def empty : Heap :=
  {}

/-- The content of a frame; a frame that was never made has none. -/
def frame (heap : Heap) (id : FrameId) : Container Value :=
  heap.frames[id]?.getD .empty

def function? (heap : Heap) (id : FunctionId) : Option Function :=
  heap.functions[id]?

/-- Make a frame. -/
def addFrame (heap : Heap) (content : Container Value) : FrameId × Heap :=
  (heap.frames.size, { heap with frames := heap.frames.push content })

/-- Make a function. -/
def addFunction (heap : Heap) (function : Function) : FunctionId × Heap :=
  (heap.functions.size,
    { heap with functions := heap.functions.push function })

/-- Make a function that is another one with further arguments bound.  The
number of no function stays as it is. -/
def bindFunction (heap : Heap) (id : FunctionId) (args : Container Value) :
    FunctionId × Heap :=
  match heap.function? id with
  | some function => heap.addFunction (function.withBound args)
  | none => (id, heap)

/-- Set a key of a frame. -/
def setInFrame (heap : Heap) (id : FrameId) (key : Key) (value : Value) :
    Heap :=
  { heap with frames := heap.frames.modify id fun content =>
      content.set key value }

/-- Put a frame on top of a chain. -/
def push (heap : Heap) (frame : FrameId) (chain : Chain) : Chain × Heap :=
  (⟨heap.nextLink, frame⟩ :: chain,
    { heap with nextLink := heap.nextLink + 1 })

/-- Make a frame and put it on top of a chain. -/
def pushNew (heap : Heap) (content : Container Value) (chain : Chain) :
    Chain × Heap :=
  let (frame, heap) := heap.addFrame content
  heap.push frame chain

/-- Make an array of one frame. -/
def addArray (heap : Heap) (content : Container Value) : Value × Heap :=
  let (chain, heap) := heap.pushNew content []
  (.array chain, heap)

theorem frame_addFrame_self (heap : Heap) (content : Container Value) :
    (heap.addFrame content).2.frame (heap.addFrame content).1 = content := by
  simp [addFrame, frame]

theorem frame_addFrame_of_lt (heap : Heap) (content : Container Value)
    {id : FrameId} (hlt : id < heap.frames.size) :
    (heap.addFrame content).2.frame id = heap.frame id := by
  simp [addFrame, frame, Array.getElem?_push, Nat.ne_of_lt hlt]

theorem frame_setInFrame_of_ne (heap : Heap) {id other : FrameId} (key : Key)
    (value : Value) (hne : other ≠ id) :
    (heap.setInFrame id key value).frame other = heap.frame other := by
  simp [setInFrame, frame, Array.getElem?_modify, hne.symm]

theorem frame_setInFrame_self (heap : Heap) {id : FrameId} (key : Key)
    (value : Value) (hlt : id < heap.frames.size) :
    (heap.setInFrame id key value).frame id =
      (heap.frame id).set key value := by
  simp [setInFrame, frame, Array.getElem_modify, hlt]

theorem size_frames_setInFrame (heap : Heap) (id : FrameId) (key : Key)
    (value : Value) :
    (heap.setInFrame id key value).frames.size = heap.frames.size := by
  simp [setInFrame]

/-- A frame that is not there stays away. -/
theorem frame_setInFrame (heap : Heap) (id other : FrameId) (key : Key)
    (value : Value) :
    (heap.setInFrame id key value).frame other =
      if other = id ∧ other < heap.frames.size then
        (heap.frame other).set key value
      else heap.frame other := by
  by_cases heq : other = id
  · subst heq
    by_cases hlt : other < heap.frames.size
    · rw [heap.frame_setInFrame_self key value hlt, if_pos ⟨rfl, hlt⟩]
    · have hsize := heap.size_frames_setInFrame other key value
      rw [if_neg fun hboth => hlt hboth.2, frame, frame,
        Array.getElem?_eq_none (hsize ▸ Nat.not_lt.mp hlt),
        Array.getElem?_eq_none (Nat.not_lt.mp hlt)]
  · rw [heap.frame_setInFrame_of_ne key value heq,
      if_neg fun hboth => heq hboth.1]

@[simp] theorem frame_push (heap : Heap) (id : FrameId) (chain : Chain)
    (other : FrameId) : (heap.push id chain).2.frame other = heap.frame other :=
  rfl

@[simp] theorem frame_addFunction (heap : Heap) (function : Function)
    (id : FrameId) :
    (heap.addFunction function).2.frame id = heap.frame id :=
  rfl

theorem function?_addFunction_self (heap : Heap) (function : Function) :
    (heap.addFunction function).2.function? (heap.addFunction function).1 =
      some function := by
  simp [addFunction, function?]

end Heap

end ChainScript
