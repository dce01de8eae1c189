/-
Byte ranges into script text.  A span is half open and counts bytes of the
UTF-8 text, so it can be compared with token lengths without decoding.
-/

namespace ChainScript

/-- The half-open byte range from `start` up to `stop`. -/
structure Span where
  start : Nat
  stop : Nat
deriving Repr, DecidableEq, Inhabited

/-- The empty span sitting at `offset`. -/
def Span.point (offset : Nat) : Span :=
  ⟨offset, offset⟩

/-- The placeholder of nodes that have no text. -/
def Span.origin : Span :=
  Span.point 0

/-- Number of bytes covered; a span written backwards covers none. -/
def Span.length (span : Span) : Nat :=
  span.stop - span.start

def Span.isEmpty (span : Span) : Bool :=
  span.length == 0

/-- The smallest span covering both arguments. -/
def Span.merge (left right : Span) : Span :=
  ⟨min left.start right.start, max left.stop right.stop⟩

/-- Every byte of the first span lies in the second one. -/
def Span.Within (inner outer : Span) : Prop :=
  outer.start ≤ inner.start ∧ inner.stop ≤ outer.stop

/-- The span moved `bytes` to the right. -/
def Span.shift (span : Span) (bytes : Nat) : Span :=
  ⟨span.start + bytes, span.stop + bytes⟩

/-- The text of a span in messages. -/
def Span.text (span : Span) : String :=
  s!"{span.start}..{span.stop}"

@[simp] theorem Span.length_point (offset : Nat) :
    (Span.point offset).length = 0 := by
  simp [Span.point, Span.length]

@[simp] theorem Span.isEmpty_point (offset : Nat) :
    (Span.point offset).isEmpty = true := by
  simp [Span.isEmpty]

@[simp] theorem Span.length_shift (span : Span) (bytes : Nat) :
    (span.shift bytes).length = span.length := by
  simp only [Span.shift, Span.length]
  omega

/-- Offsets stored in a script's tables have 32 bits. -/
def Span.maxOffset : Nat :=
  UInt32.size - 1

/-- An offset that does not fit in a span. -/
structure OffsetTooLarge where
  offset : Nat
deriving Repr, DecidableEq

def OffsetTooLarge.message (failure : OffsetTooLarge) : String :=
  s!"source offset {failure.offset} does not fit in a span"

private def checkOffset (offset : Nat) : Except OffsetTooLarge Nat :=
  if offset ≤ Span.maxOffset then .ok offset else .error ⟨offset⟩

/-- A span over the given offsets, refusing the first one that is too large. -/
def Span.ofOffsets? (start stop : Nat) : Except OffsetTooLarge Span := do
  let first ← checkOffset start
  let last ← checkOffset stop
  return ⟨first, last⟩

/-- A span over the given offsets, moving those that are too large to the
largest one. -/
def Span.clamped (start stop : Nat) : Span :=
  ⟨min start Span.maxOffset, min stop Span.maxOffset⟩

theorem Span.clamped_of_le {start stop : Nat}
    (hstart : start ≤ Span.maxOffset) (hstop : stop ≤ Span.maxOffset) :
    Span.clamped start stop = ⟨start, stop⟩ := by
  simp [Span.clamped, Nat.min_eq_left hstart, Nat.min_eq_left hstop]

end ChainScript
