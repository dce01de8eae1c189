import ChainScript.Diagnostic
import ChainScript.SourceMap

/-
Diagnostics as text for a terminal.  With the script's text at hand a label
shows its line and underlines the labelled characters; without it a label
shows its byte range.
-/

namespace ChainScript

/-- When reports are coloured. -/
inductive ColorMode where
  | auto
  | always
  | never
deriving Repr, DecidableEq

namespace ColorMode

/-- Only the automatic mode asks whether a terminal is written to. -/
def enabled (mode : ColorMode) (terminal : Bool) : Bool :=
  match mode with
  | .auto => terminal
  | .always => true
  | .never => false

def text : ColorMode → String
  | .auto => "auto"
  | .always => "always"
  | .never => "never"

/-- The mode with a given name. -/
def ofText? (word : String) : Option ColorMode :=
  [ColorMode.auto, .always, .never].find? fun mode => mode.text == word

theorem ofText?_text (mode : ColorMode) : ofText? mode.text = some mode := by
  cases mode <;> decide

end ColorMode

/-- The role of a coloured piece of a report. -/
inductive Paint where
  | error
  | warning
  | context
  | help
  | emphasis
deriving Repr, DecidableEq

namespace Paint

/-- The escape sequence that starts a role. -/
def start : Paint → String
  | .error => "\x1b[1;31m"
  | .warning => "\x1b[1;33m"
  | .context => "\x1b[1;34m"
  | .help => "\x1b[1;32m"
  | .emphasis => "\x1b[1m"

/-- The escape sequence that ends every role. -/
def stop : String := "\x1b[0m"

def ofSeverity : Severity → Paint
  | .error => .error
  | .warning => .warning

def ofLabel (style : LabelStyle) (severity : Severity) : Paint :=
  match style with
  | .primary => ofSeverity severity
  | .secondary => .context

/-- A piece of text in its role. -/
def apply (paint : Paint) (colors : Bool) (text : String) : String :=
  if colors then paint.start ++ text ++ stop else text

end Paint

/-- What a report is written with. -/
structure ReportStyle where
  colors : Bool
  source : Option SourceMap

namespace ReportStyle

variable (style : ReportStyle)

/-- Width of an underline that starts in `column`: as wide as the label, not
beyond the end of the line, and never empty. -/
def underlineWidth (lineLength column width : Nat) : Nat :=
  max 1 (min width (lineLength - (column - 1)))

def header (diagnostic : Diagnostic) : String :=
  (Paint.ofSeverity diagnostic.severity).apply style.colors
      diagnostic.severity.text ++
    Paint.emphasis.apply style.colors ("[" ++ diagnostic.code.text ++ "]") ++
    ": " ++ diagnostic.message ++ "\n"

/-- The labelled line of a text, with the label under it. -/
def snippet (paint : Paint) (label : Label) (line column : Nat)
    (shown : List Char) : String :=
  let number := toString line
  let gutter := String.ofList (List.replicate number.length ' ')
  let indent := String.ofList (List.replicate (column - 1) ' ')
  let underline := String.ofList (List.replicate
    (underlineWidth shown.length column label.span.length)
    label.style.underline)
  " " ++ gutter ++ " |\n" ++
    " " ++ number ++ " | " ++ String.ofList shown ++ "\n" ++
    " " ++ gutter ++ " | " ++ indent ++
    paint.apply style.colors (underline ++ " " ++ label.message) ++ "\n"

/-- The arrow in front of a label's place. -/
def arrow : LabelStyle → String
  | .primary => "-->"
  | .secondary => ":::"

def label (severity : Severity) (label : Label) : String :=
  let paint := Paint.ofLabel label.style severity
  let lead := "  " ++ arrow label.style ++ " "
  match style.source with
  | none =>
      lead ++ label.span.text ++ ": " ++
        paint.apply style.colors label.message ++ "\n"
  | some source =>
      let (line, column) := source.locate label.span.start
      let place := lead ++ source.name ++ ":" ++ toString line ++ ":" ++
        toString column ++ "\n"
      match source.line? line with
      | none => place
      | some shown => place ++ style.snippet paint label line column shown

def trailer (paint : Paint) (kind text : String) : String :=
  "  = " ++ paint.apply style.colors kind ++ ": " ++ text ++ "\n"

/-- The whole report, ended by an empty line. -/
def render (diagnostic : Diagnostic) : String :=
  style.header diagnostic ++
    String.join (diagnostic.labels.map (style.label diagnostic.severity)) ++
    String.join (diagnostic.notes.map (style.trailer .emphasis "note")) ++
    String.join (diagnostic.suggestions.map (style.trailer .help "help")) ++
    "\n"

end ReportStyle

end ChainScript
