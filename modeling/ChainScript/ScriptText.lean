import ChainScript.Interpreter
import ChainScript.Lexer
import ChainScript.Parser
import ChainScript.RunError

/-
From the text of a script to the text of its value.
-/

namespace ChainScript

/-- The tokens and the tree of a script, as program `number`. -/
def parseText (number : Nat) (text : String) :
    Outcome RunError ParsedScript :=
  match lex text with
  | .error error => .error (.lex error)
  | .ok tokens =>
      match parse number tokens with
      | .ok parsed => .ok parsed
      | .error error => .error (.parse error)
      | .halted halt => .halted halt

/-- The text of a value, which is missing for null. -/
def resultText (heap : Heap) (value : Value) :
    Outcome RunError (Option String) :=
  match value with
  | .null => .ok none
  | value => (Outcome.ofOption .exhausted (heap.text? value)).map some

/-- Run a script by itself, without globals and without a host. -/
def ParsedScript.run (parsed : ParsedScript) (limit : Nat) :
    Outcome RunError (Option String) :=
  let machine := Machine.start .empty #[parsed.program] 0 .empty limit ()
  match runScript Host.silent parsed.script machine with
  | (.ok value, after) => resultText after.heap value
  | (.error exit, _) => .error (.fault exit)
  | (.halted halt, _) => .halted halt

/-- Run the text of a script with a limit on active calls.  The result is the
text of the script's value. -/
def runText (limit : Nat) (text : String) :
    Outcome RunError (Option String) :=
  match parseText 0 text with
  | .ok parsed => parsed.run limit
  | .error error => .error error
  | .halted halt => .halted halt

theorem parseText_of_lex_error {number : Nat} {text : String}
    {error : LexError} (hlex : lex text = .error error) :
    parseText number text = .error (.lex error) := by
  simp [parseText, hlex]

end ChainScript
