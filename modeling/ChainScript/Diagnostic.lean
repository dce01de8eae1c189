import ChainScript.ErrorCode
import ChainScript.Span

/-
Reports about a script, ready to be shown: a code, a message, labelled places
in the text, and notes.
-/

namespace ChainScript

/-- How serious a report is. -/
inductive Severity where
  | error
  | warning
deriving Repr, DecidableEq

def Severity.text : Severity → String
  | .error => "error"
  | .warning => "warning"

/-- Whether a label marks the problem itself or a related place. -/
inductive LabelStyle where
  | primary
  | secondary
deriving Repr, DecidableEq

/-- The character repeated under the labelled text. -/
def LabelStyle.underline : LabelStyle → Char
  | .primary => '^'
  | .secondary => '-'

/-- A message attached to a place in the text. -/
structure Label where
  style : LabelStyle
  span : Span
  message : String
deriving Repr, DecidableEq

/-- A report about a script. -/
structure Diagnostic where
  code : ErrorCode
  severity : Severity := .error
  message : String := code.description
  labels : List Label := []
  notes : List String := []
  suggestions : List String := []
deriving Repr, DecidableEq

/-- The place of the first primary label. -/
def Diagnostic.primarySpan? (diagnostic : Diagnostic) : Option Span :=
  (diagnostic.labels.find? fun label => label.style == .primary).map Label.span

def Diagnostic.isError (diagnostic : Diagnostic) : Bool :=
  diagnostic.severity == .error

/-- The report on one line. -/
def Diagnostic.summary (diagnostic : Diagnostic) : String :=
  let place :=
    match diagnostic.primarySpan? with
    | some span => " at " ++ span.text
    | none => ""
  diagnostic.severity.text ++ "[" ++ diagnostic.code.text ++ "]: " ++
    diagnostic.message ++ place

end ChainScript
