/-
Lines and columns of byte offsets in a named text.  Lines are ended by line
feeds; columns count characters.  Both start at one and have 32 bits.
-/

namespace ChainScript

/-- Number of bytes of the encoded characters. -/
def utf8Length : List Char → Nat
  | [] => 0
  | c :: rest => c.utf8Size + utf8Length rest

@[simp] theorem utf8Length_nil : utf8Length [] = 0 :=
  rfl

@[simp] theorem utf8Length_cons (c : Char) (rest : List Char) :
    utf8Length (c :: rest) = c.utf8Size + utf8Length rest :=
  rfl

@[simp] theorem utf8Length_append (left right : List Char) :
    utf8Length (left ++ right) = utf8Length left + utf8Length right := by
  induction left with
  | nil => simp
  | cons c rest ih => simp [ih, Nat.add_assoc]

/-- What remains after exactly `bytes` bytes, if they end between two
characters. -/
def dropBytes? : Nat → List Char → Option (List Char)
  | 0, chars => some chars
  | _ + 1, [] => none
  | bytes + 1, c :: rest =>
      if c.utf8Size ≤ bytes + 1 then dropBytes? (bytes + 1 - c.utf8Size) rest
      else none

/-- The first `bytes` bytes, if they end between two characters. -/
def takeBytes? : Nat → List Char → Option (List Char)
  | 0, _ => some []
  | _ + 1, [] => none
  | bytes + 1, c :: rest =>
      if c.utf8Size ≤ bytes + 1 then
        (takeBytes? (bytes + 1 - c.utf8Size) rest).map (c :: ·)
      else none

theorem dropBytes?_append (left right : List Char) :
    dropBytes? (utf8Length left) (left ++ right) = some right := by
  induction left with
  | nil => simp [dropBytes?]
  | cons c rest ih =>
      have hsize := c.utf8Size_pos
      obtain ⟨bytes, hbytes⟩ :
          ∃ bytes, c.utf8Size + utf8Length rest = bytes + 1 :=
        ⟨c.utf8Size + utf8Length rest - 1, by omega⟩
      have hle : c.utf8Size ≤ bytes + 1 := by omega
      have hrest : bytes + 1 - c.utf8Size = utf8Length rest := by omega
      simp [hbytes, dropBytes?, hle, hrest, ih]

theorem takeBytes?_append (left right : List Char) :
    takeBytes? (utf8Length left) (left ++ right) = some left := by
  induction left with
  | nil => simp [takeBytes?]
  | cons c rest ih =>
      have hsize := c.utf8Size_pos
      obtain ⟨bytes, hbytes⟩ :
          ∃ bytes, c.utf8Size + utf8Length rest = bytes + 1 :=
        ⟨c.utf8Size + utf8Length rest - 1, by omega⟩
      have hle : c.utf8Size ≤ bytes + 1 := by omega
      have hrest : bytes + 1 - c.utf8Size = utf8Length rest := by omega
      simp [hbytes, takeBytes?, hle, hrest, ih]

/-- The offsets after each line feed, counted from `offset`. -/
def afterFeeds (offset : Nat) : List Char → List Nat
  | [] => []
  | c :: rest =>
      let next := offset + c.utf8Size
      if c = '\n' then next :: afterFeeds next rest else afterFeeds next rest

/-- A text and the name it is reported under. -/
structure SourceMap where
  name : String
  text : String
deriving Repr, DecidableEq

namespace SourceMap

/-- The largest number of a line or a column. -/
def maxNumber : Nat :=
  UInt32.size - 1

/-- The number of the line or column with an index.  All that have no number of
their own get the largest one. -/
def oneBased (index : Nat) : Nat :=
  min (index + 1) maxNumber

variable (map : SourceMap)

def chars : List Char :=
  map.text.toList

/-- The offsets at which lines start. -/
def lineStarts : List Nat :=
  0 :: afterFeeds 0 map.chars

def lineCount : Nat :=
  map.lineStarts.length

/-- The characters between two offsets, if both lie between characters. -/
def between? (start stop : Nat) : Option (List Char) := do
  let rest ← dropBytes? start map.chars
  takeBytes? (stop - start) rest

/-- Line and column of an offset.  An offset past the end is taken to be just
after the last character; one inside a character is in the first column. -/
def locate (offset : Nat) : Nat × Nat :=
  let offset := min offset (utf8Length map.chars)
  let before := map.lineStarts.takeWhile (· ≤ offset)
  let start := before.getLastD 0
  let column := ((map.between? start offset).map List.length).getD 0
  (oneBased (before.length - 1), oneBased column)

/-- Drop line feeds and carriage returns at the end. -/
def trimLineEnd (line : List Char) : List Char :=
  (line.reverse.dropWhile fun c => c = '\n' || c = '\r').reverse

/-- The text of a line without its end. -/
def line? (line : Nat) : Option (List Char) := do
  let start ← if line = 0 then none else map.lineStarts[line - 1]?
  let stop := map.lineStarts[line]?.getD (utf8Length map.chars)
  return trimLineEnd (← map.between? start stop)

end SourceMap

example : (SourceMap.mk "demo" "a = 1\nb = 2").locate 8 = (2, 3) := by
  decide +kernel

example : ((SourceMap.mk "demo" "a = 1\nb = 2").line? 2).map String.ofList =
    some "b = 2" := by
  decide +kernel

end ChainScript
