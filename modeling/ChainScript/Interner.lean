/-
A table that gives each distinct text a number.  Numbers are handed out in
order of first appearance and never change their text.

Texts are found by number in an array, and numbers by text in a map.  Numbers
have 32 bits, so a table can be full; a full table still knows its texts.
-/

namespace ChainScript

structure Interner where
  /-- The number of each text, latest first. -/
  numbers : List (String × Nat) := []
  /-- Texts in the order of their numbers. -/
  texts : Array String := #[]
deriving Repr, DecidableEq

/-- A new text found no number left. -/
structure InternError where
  count : Nat
deriving Repr, DecidableEq

def InternError.message (error : InternError) : String :=
  "string interner is full (" ++ toString error.count ++ " strings)"

namespace Interner

/-- The texts that every table starts with: the empty text, the reserved words
and the words that running a script asks for. -/
def standardTexts : List String :=
  ["", "and", "as", "break", "catch", "continue", "do", "elif", "else",
    "false", "for", "from", "func", "if", "in", "inherit", "not", "null",
    "or", "raise", "return", "true", "try", "with", "enter", "release",
    "kind", "message", "name"]

/-- How many numbers there are. -/
def capacity : Nat :=
  UInt32.size

/-- The number of a text that is in the table. -/
def find? (interner : Interner) (text : String) : Option Nat :=
  interner.numbers.lookup text

/-- Add a text under the next number. -/
def insert (interner : Interner) (text : String) :
    Except InternError (Nat × Interner) :=
  let number := interner.texts.size
  if number < capacity then
    .ok (number,
      ⟨(text, number) :: interner.numbers, interner.texts.push text⟩)
  else .error ⟨number⟩

/-- The number of a text, which is added if it is new. -/
def intern (interner : Interner) (text : String) :
    Except InternError (Nat × Interner) :=
  match interner.find? text with
  | some number => .ok (number, interner)
  | none => interner.insert text

/-- Intern several texts in order. -/
def internAll (interner : Interner) :
    List String → Except InternError (List Nat × Interner)
  | [] => .ok ([], interner)
  | text :: rest => do
      let (number, interner) ← interner.intern text
      let (numbers, interner) ← interner.internAll rest
      return (number :: numbers, interner)

/-- The text of a number; a number that was never handed out has the empty
text. -/
def lookup (interner : Interner) (number : Nat) : String :=
  interner.texts[number]?.getD ""

/-- Number of distinct texts. -/
def size (interner : Interner) : Nat :=
  interner.texts.size

/-- Add a text if there is room for it. -/
def addText (interner : Interner) (text : String) : Interner :=
  match interner.intern text with
  | .ok (_, interner) => interner
  | .error _ => interner

/-- A new table. -/
def standard : Interner :=
  standardTexts.foldl addText {}

theorem intern_of_known {interner : Interner} {text : String} {number : Nat}
    (hknown : interner.find? text = some number) :
    interner.intern text = .ok (number, interner) := by
  simp [intern, hknown]

theorem intern_of_new {interner : Interner} {text : String}
    (hnew : interner.find? text = none)
    (hroom : interner.texts.size < capacity) :
    interner.intern text = .ok (interner.texts.size,
      ⟨(text, interner.texts.size) :: interner.numbers,
        interner.texts.push text⟩) := by
  simp [intern, hnew, insert, hroom]

theorem lookup_of_getElem? {interner : Interner} {number : Nat}
    {text : String} (hnumber : interner.texts[number]? = some text) :
    interner.lookup number = text := by
  simp [lookup, hnumber]

theorem internAll_of_intern {interner after last : Interner} {text : String}
    {rest : List String} {number : Nat} {numbers : List Nat}
    (hfirst : interner.intern text = .ok (number, after))
    (hrest : after.internAll rest = .ok (numbers, last)) :
    interner.internAll (text :: rest) = .ok (number :: numbers, last) := by
  rw [internAll, hfirst]
  simp [bind, Except.bind, hrest, pure, Except.pure]

end Interner

end ChainScript
