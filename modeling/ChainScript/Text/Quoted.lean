/-
Quoted text.  Inside quotes a backslash and a letter stand for a character
that cannot be written directly, and the quote and the backslash are written
with a backslash in front.
-/

namespace ChainScript

/-- The character that a letter after a backslash stands for. -/
def escapedChar? (letter : Char) : Option Char :=
  match letter with
  | 'n' => some '\n'
  | 'r' => some '\r'
  | 't' => some '\t'
  | '\\' => some '\\'
  | '"' => some '"'
  | '0' => some '\x00'
  | _ => none

/-- The letter with which a character is written after a backslash, if it is
written that way. -/
def escapeLetter? (c : Char) : Option Char :=
  match c with
  | '\n' => some 'n'
  | '\r' => some 'r'
  | '\t' => some 't'
  | '\\' => some '\\'
  | '"' => some '"'
  | '\x00' => some '0'
  | _ => none

theorem escapedChar?_of_escapeLetter? {c letter : Char}
    (hletter : escapeLetter? c = some letter) :
    escapedChar? letter = some c := by
  unfold escapeLetter? at hletter
  split at hletter <;> cases hletter <;> rfl

/-- One character between quotes. -/
def quoteChar (c : Char) : List Char :=
  match escapeLetter? c with
  | some letter => ['\\', letter]
  | none => [c]

/-- Characters between quotes, the quotes included. -/
def quoteChars (text : List Char) : List Char :=
  '"' :: (text.flatMap quoteChar ++ ['"'])

/-- Text between quotes. -/
def quote (text : String) : String :=
  String.ofList (quoteChars text.toList)

/-- An escape without a meaning: the offset of its backslash and the character
after it. -/
structure BadEscape where
  offset : Nat
  letter : Char
deriving Repr, DecidableEq

/-- Resolve the escapes of a text that stands between quotes, which starts at
`offset`. -/
def unquoteFrom (offset : Nat) : List Char → Except BadEscape (List Char)
  | [] => .ok []
  | c :: rest =>
      if c = '\\' then
        match rest with
        | [] => .error ⟨offset, '\\'⟩
        | letter :: after =>
            match escapedChar? letter with
            | none => .error ⟨offset, letter⟩
            | some meant =>
                (unquoteFrom (offset + 1 + letter.utf8Size) after).map
                  (meant :: ·)
      else (unquoteFrom (offset + c.utf8Size) rest).map (c :: ·)

theorem unquoteFrom_cons_of_ne (offset : Nat) {c : Char} (rest : List Char)
    (hplain : c ≠ '\\') :
    unquoteFrom offset (c :: rest) =
      (unquoteFrom (offset + c.utf8Size) rest).map (c :: ·) := by
  cases rest <;> simp [unquoteFrom, hplain]

/-- Resolving the escapes that quoting wrote gives the text back. -/
theorem unquoteFrom_flatMap_quoteChar (offset : Nat) (text : List Char) :
    unquoteFrom offset (text.flatMap quoteChar) = .ok text := by
  induction text generalizing offset with
  | nil => rfl
  | cons c rest ih =>
      rw [List.flatMap_cons, quoteChar]
      cases hletter : escapeLetter? c with
      | some letter =>
          simp [unquoteFrom, escapedChar?_of_escapeLetter? hletter, ih,
            Except.map]
      | none =>
          have hplain : c ≠ '\\' := by
            rintro rfl
            simp [escapeLetter?] at hletter
          simp [unquoteFrom_cons_of_ne, hplain, ih, Except.map]

end ChainScript
