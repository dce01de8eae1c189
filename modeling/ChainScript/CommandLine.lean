import ChainScript.FileTree
import ChainScript.Options
import ChainScript.ScriptText

/-
What the command line program writes, and the status that it ends with.

The program takes the content of the script, or the reason why it could not be
read, as an argument.
-/

namespace ChainScript

/-- Everything that can be seen of a run of the program. -/
structure ProgramOutput where
  status : ExitStatus := .success
  output : String := ""
  errors : String := ""
deriving Repr, DecidableEq

def versionText : String := "0.1.0-alpha.1"

/-- Lines of text, each with its end. -/
def unlines (lines : List String) : String :=
  String.join (lines.map (· ++ "\n"))

def usage : String :=
  unlines [
    "Wry " ++ versionText,
    "",
    "Usage: wry [OPTIONS] [FILE]",
    "",
    "Runs FILE, or the script on stdin when FILE is missing or `-`,",
    "and prints its value unless it is null.",
    "",
    "Options:",
    "  --max-depth=N           Maximum nested function calls (default 512)",
    "  --color=auto|always|never",
    "                          Colour diagnostics (default auto)",
    "  -q, --quiet             Do not print the script's value",
    "  -h, --help              Print this help",
    "  -V, --version           Print the version",
    "",
    "Exit status: 0 success, 1 syntax error, 2 runtime fault, " ++
      "3 I/O or usage error.",
    "",
    "Set RUST_LOG (e.g. RUST_LOG=wry_eval=debug) to trace evaluation."]

/-- The name under which a script is reported. -/
def RunOptions.scriptName (options : RunOptions) : String :=
  options.path.getD "<stdin>"

/-- The text that some bytes encode. -/
def decodeText (bytes : ByteArray) : Except String String :=
  match String.fromUTF8? bytes with
  | some text => .ok text
  | none => .error "stream did not contain valid UTF-8"

namespace ProgramOutput

/-- The answer to wrong arguments. -/
def ofUsageError (error : UsageError) : ProgramOutput where
  status := .badUse
  output := usage
  errors := unlines ["error: " ++ error.message, ""]

/-- The answer to a script that was not run to its end. -/
def ofRunError (error : RunError) (style : ReportStyle) : ProgramOutput where
  status := error.status
  errors := error.report style

/-- The answer to a script that was run to its end. -/
def ofResult (quiet : Bool) : Option String → ProgramOutput
  | some text => if quiet then {} else { output := text ++ "\n" }
  | none => {}

end ProgramOutput

/-- Run a script.  The last argument tells whether errors go to a terminal. -/
def RunOptions.respond (options : RunOptions)
    (content : Except String ByteArray) (terminal : Bool) :
    Except Halt ProgramOutput :=
  let colors := options.color.enabled terminal
  match content >>= decodeText with
  | .error reason =>
      .ok (.ofRunError (.unreadable options.scriptName reason) ⟨colors, none⟩)
  | .ok text =>
      match runText options.limit text with
      | .ok result => .ok (.ofResult options.quiet result)
      | .error error =>
          .ok (.ofRunError error ⟨colors, some ⟨options.scriptName, text⟩⟩)
      | .halted halt => .error halt

/-- Answer the arguments of the program. -/
def respond (arguments : List String)
    (content : Option String → Except String ByteArray) (terminal : Bool) :
    Except Halt ProgramOutput :=
  match Command.ofArguments arguments with
  | .error error => .ok (.ofUsageError error)
  | .ok .help => .ok { output := usage }
  | .ok .version => .ok { output := unlines ["wry " ++ versionText] }
  | .ok (.run options) =>
      options.respond (content options.path) terminal

end ChainScript
