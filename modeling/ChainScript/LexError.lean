import ChainScript.Diagnostic

/-
What can be wrong with the characters of a script.
-/

namespace ChainScript

/-- Why a text has no tokens. -/
inductive LexFault where
  /-- A quote that is not closed on its line. -/
  | unterminatedString
  /-- A character that starts no token. -/
  | invalidCharacter (c : Char)
  /-- A number that is out of range. -/
  | invalidNumber (text : String)
  /-- A backslash before a character that has no meaning there. -/
  | invalidEscape (c : Char)
deriving Repr, DecidableEq

/-- A fault and its place in the text. -/
structure LexError where
  span : Span
  fault : LexFault
deriving Repr, DecidableEq

namespace LexFault

def code : LexFault → ErrorCode
  | .unterminatedString => .unterminatedString
  | .invalidCharacter _ => .invalidCharacter
  | .invalidNumber _ => .invalidNumber
  | .invalidEscape _ => .invalidEscape

/-- The text that the fault is about. -/
def subject? : LexFault → Option String
  | .unterminatedString => none
  | .invalidCharacter c => some (String.ofList [c])
  | .invalidNumber text => some text
  | .invalidEscape c => some (String.ofList [c])

def message : LexFault → String
  | .unterminatedString => "unterminated string literal"
  | .invalidCharacter c => "invalid character `" ++ String.ofList [c] ++ "`"
  | .invalidNumber text => "invalid number literal `" ++ text ++ "`"
  | .invalidEscape c =>
      "invalid escape sequence `\\" ++ String.ofList [c] ++ "`"

def label : LexFault → String
  | .unterminatedString => "string starts here"
  | .invalidCharacter _ => "not valid here"
  | .invalidNumber _ => "cannot be represented"
  | .invalidEscape _ => "unknown escape"

def notes : LexFault → List String
  | .invalidEscape _ => ["valid escapes are \\n \\t \\r \\\\ \\\" and \\0"]
  | .invalidNumber _ => ["integers must fit in a signed 64-bit value"]
  | _ => []

def suggestions : LexFault → List String
  | .unterminatedString =>
      ["add a closing `\"` before the end of the line"]
  | _ => []

end LexFault

def LexError.diagnostic (error : LexError) : Diagnostic where
  code := error.fault.code
  message := error.fault.message
  labels := [⟨.primary, error.span, error.fault.label⟩]
  notes := error.fault.notes
  suggestions := error.fault.suggestions

theorem LexError.primarySpan?_diagnostic (error : LexError) :
    error.diagnostic.primarySpan? = some error.span :=
  rfl

end ChainScript
