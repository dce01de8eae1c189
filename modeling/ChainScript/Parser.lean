import ChainScript.Parser.Statement

/-
Parsing a list of tokens into a program.

The rules of the grammar refer back to each other only after a token has been
consumed, so a depth of one more than the number of tokens is enough for every
list of tokens.
-/

namespace ChainScript

/-- Parsers for the rules that may refer back to a given depth. -/
def grammar : Nat → Grammar
  | 0, _ => Step.halt .exhausted
  | depth + 1, .expr => Parse.assignExpr (grammar depth)
  | depth + 1, .notExpr => Parse.notExpr (grammar depth)
  | depth + 1, .signExpr => Parse.signExpr (grammar depth)
  | depth + 1, .block => Parse.block (grammar depth)
  | depth + 1, .branch => Parse.branch (grammar depth)

/-- A script and the tables that its nodes are in. -/
structure ParsedScript where
  program : Program
  script : Script
deriving Repr, DecidableEq

/-- The state in front of all tokens. -/
def ParserState.start (number : Nat) (tokens : List Token) : ParserState :=
  ⟨.start tokens, .empty number, 0⟩

/-- Run the rule for scripts on a list of tokens, as program `number`.  The
final state is given also if the tokens are not a script. -/
def runParser (number : Nat) (tokens : List Token) :
    Outcome ParseError Script × ParserState :=
  Parse.script (grammar (tokens.length + 1)) (.start number tokens)

/-- Parse a list of tokens as program `number`. -/
def parse (number : Nat) (tokens : List Token) :
    Outcome ParseError ParsedScript :=
  let (outcome, state) := runParser number tokens
  outcome.map fun script => ⟨state.program, script⟩

end ChainScript
