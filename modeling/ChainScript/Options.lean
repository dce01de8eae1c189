import ChainScript.CallStack
import ChainScript.Decimal.Digits
import ChainScript.Report

/-
The arguments of the command line program.

Arguments are read from left to right.  The first one that asks for help or
for the version settles the command, and so does the first one that is wrong.
Of two values for one option the later one holds.
-/

namespace ChainScript

/-- How to run a script.  Without a path the script is read from standard
input. -/
structure RunOptions where
  path : Option String := none
  limit : Nat := CallStack.defaultLimit
  color : ColorMode := .auto
  quiet : Bool := false
deriving Repr, DecidableEq

/-- What the program is asked to do. -/
inductive Command where
  | run (options : RunOptions)
  | help
  | version
deriving Repr, DecidableEq

/-- What is wrong with the arguments. -/
inductive UsageError where
  | unknownOption (argument : String)
  | invalidValue (option value : String)
  | extraArgument (argument : String)
deriving Repr, DecidableEq

def UsageError.message : UsageError → String
  | .unknownOption argument => "unknown option `" ++ argument ++ "`"
  | .invalidValue option value =>
      "invalid value `" ++ value ++ "` for `" ++ option ++ "`"
  | .extraArgument argument =>
      "unexpected argument `" ++ argument ++ "`: only one script can be run"

/-- The forms of arguments. -/
inductive Argument where
  | help
  | version
  | quiet
  | limit (value : String)
  | color (value : String)
  /-- A script; it is read from standard input if it has no path. -/
  | script (path : Option String)
  | unknown
deriving Repr, DecidableEq

/-- What follows `start` in a text that starts with it. -/
def textAfter? (start text : String) : Option String :=
  if start.toList.isPrefixOf text.toList then
    some (String.ofList (text.toList.drop start.toList.length))
  else none

theorem textAfter?_append (start rest : String) :
    textAfter? start (start ++ rest) = some rest := by
  simp [textAfter?, String.toList_append]

/-- The form of an argument.  A lone hyphen stands for standard input. -/
def Argument.ofText (text : String) : Argument :=
  match text with
  | "-h" | "--help" => .help
  | "-V" | "--version" => .version
  | "-q" | "--quiet" => .quiet
  | "-" => .script none
  | text =>
      match textAfter? "--max-depth=" text, textAfter? "--color=" text with
      | some value, _ => .limit value
      | none, some value => .color value
      | none, none =>
          if text.startsWith "-" then .unknown else .script (some text)

/-- The number that some decimal digits denote. -/
def decimalValue? : List Char → Option Nat
  | [] => none
  | digits =>
      if digits.all Char.isDigit then some (digitsValue digits) else none

/-- Read a limit on active calls: a positive number of 64 bits, which may have
a plus sign. -/
def readLimit? (text : String) : Option Nat := do
  let digits :=
    match text.toList with
    | '+' :: digits => digits
    | digits => digits
  let limit ← decimalValue? digits
  if 0 < limit ∧ limit < UInt64.size then some limit else none

/-- Read arguments, given the options so far and whether a script has been
named. -/
def readArguments (options : RunOptions) (named : Bool) :
    List String → Except UsageError Command
  | [] => .ok (.run options)
  | text :: rest =>
      match Argument.ofText text with
      | .help => .ok .help
      | .version => .ok .version
      | .quiet => readArguments { options with quiet := true } named rest
      | .limit value =>
          match readLimit? value with
          | some limit => readArguments { options with limit } named rest
          | none => .error (.invalidValue "--max-depth" value)
      | .color value =>
          match ColorMode.ofText? value with
          | some color => readArguments { options with color } named rest
          | none => .error (.invalidValue "--color" value)
      | .unknown => .error (.unknownOption text)
      | .script path =>
          if named then .error (.extraArgument text)
          else readArguments { options with path } true rest

/-- The command that some arguments ask for. -/
def Command.ofArguments (arguments : List String) :
    Except UsageError Command :=
  readArguments {} false arguments

example : readLimit? "+64" = some 64 := by
  decide +kernel

example : readLimit? "18446744073709551616" = none := by
  decide +kernel

example : (Command.ofArguments ["-q", "demo", "--color=never"]).toOption =
    some (.run ⟨some "demo", 512, .never, true⟩) := by
  decide +kernel

end ChainScript
