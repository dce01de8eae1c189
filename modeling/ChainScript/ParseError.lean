import ChainScript.Diagnostic
import ChainScript.Token

/-
Why a list of tokens is not a script.  Parsing stops at the first error, so
one error is the whole reason.
-/

namespace ChainScript

/-- What was being parsed when an error occurred. -/
inductive ParseContext where
  | script
  | block
  | ifStatement
  | doStatement
  | forLoop
  | tryStatement
  | catchClause
  | withStatement
  | assignBlock
  | funcBlock
  | inheritBlock
  | arrayLiteral
  | argumentList
  | functionCall
  | indexExpression
  | memberAccess
  | functionExpression
  | functionParams
deriving Repr, DecidableEq

/-- The phrase that follows "while parsing". -/
def ParseContext.description : ParseContext → String
  | .script => "the script"
  | .block => "a block"
  | .ifStatement => "an if statement"
  | .doStatement => "a do block"
  | .forLoop => "a for loop"
  | .tryStatement => "a try statement"
  | .catchClause => "a catch clause"
  | .withStatement => "a with statement"
  | .assignBlock => "an assignment block"
  | .funcBlock => "a function definition"
  | .inheritBlock => "an inherit block"
  | .arrayLiteral => "an array literal"
  | .argumentList => "an argument list"
  | .functionCall => "a function call"
  | .indexExpression => "an index expression"
  | .memberAccess => "a member access"
  | .functionExpression => "a function expression"
  | .functionParams => "function parameters"

/-- What would have been accepted in place of an unexpected token. -/
inductive Expectation where
  | token (kind : TokenKind)
  | endOfStatement
  | memberKey
  | badgeKey
  | commaOr (close : TokenKind)
  | closeAfterRest
deriving Repr, DecidableEq

def Expectation.text : Expectation → String
  | .token kind => kind.shown
  | .endOfStatement => "end of statement"
  | .memberKey => "member name or index"
  | .badgeKey => "name, integer or string after `@`"
  | .commaOr close => "`,` or " ++ close.shown
  | .closeAfterRest => "`)` after rest parameter"

/-- The causes of parse errors. -/
inductive ParseFault where
  | unexpected (expected : Expectation) (found : TokenKind)
  | expectedExpression (found : TokenKind)
  /-- The delimiter at `place` was never closed. -/
  | unclosed (opener : TokenKind) (place : Span) (found : TokenKind)
  | expectedName (found : TokenKind)
  | expectedBlock (found : TokenKind)
  | invalidTarget
  | outsideLoop (keyword : TokenKind)
  | chainedComparison
  /-- A fault kind stands where the name of a variable is bound. -/
  | kindAsBinding (kind : String)
deriving Repr, DecidableEq

namespace ParseFault

def code : ParseFault → ErrorCode
  | .unexpected .. => .unexpectedToken
  | .expectedExpression _ => .expectedExpression
  | .unclosed .. => .unclosedDelimiter
  | .expectedName _ => .expectedName
  | .expectedBlock _ => .expectedBlock
  | .invalidTarget => .invalidTarget
  | .outsideLoop _ => .outsideLoop
  | .chainedComparison => .chainedComparison
  | .kindAsBinding _ => .kindAsBinding

def message : ParseFault → String
  | .unexpected expected found =>
      "expected " ++ expected.text ++ ", found " ++ found.shown
  | .expectedExpression found => "expected expression, found " ++ found.shown
  | .unclosed opener _ found =>
      "unclosed delimiter " ++ opener.shown ++ ", found " ++ found.shown
  | .expectedName found => "expected identifier, found " ++ found.shown
  | .expectedBlock found => "expected block, found " ++ found.shown
  | .invalidTarget => "invalid assignment target"
  | .outsideLoop keyword => keyword.shown ++ " outside of a loop"
  | .chainedComparison => "comparison operators cannot be chained"
  | .kindAsBinding kind => "`" ++ kind ++ "` names a fault kind, not a variable"

/-- Other places that matter, such as the opening delimiter. -/
def related : ParseFault → List Label
  | .unclosed _ place _ =>
      [⟨.secondary, place, "unclosed delimiter opened here"⟩]
  | _ => []

def help : ParseFault → List String
  | .expectedBlock _ => ["blocks are written `\x7b ... \x7d`"]
  | .invalidTarget => ["only a name or a `@key` badge can be assigned"]
  | .chainedComparison => ["combine the comparisons with `and`"]
  | .kindAsBinding kind =>
      ["write `catch " ++ kind ++ " as err` to catch only `" ++ kind ++
        "` faults"]
  | _ => []

def label : ParseFault → String
  | .unexpected .. => "unexpected token"
  | .expectedExpression _ => "expected an expression here"
  | .unclosed .. => "delimiter not closed before this"
  | .expectedName _ => "expected a name here"
  | .expectedBlock _ => "expected `\x7b` here"
  | .invalidTarget => "cannot assign to this"
  | .outsideLoop _ => "not inside a `for` loop"
  | .chainedComparison => "second comparison here"
  | .kindAsBinding _ => "add `as <name>` after this kind"

end ParseFault

/-- A parse error: its cause, its place, and what was being parsed. -/
structure ParseError where
  fault : ParseFault
  span : Span
  context : Option ParseContext := none
deriving Repr, DecidableEq

namespace ParseError

/-- Name what was being parsed, unless something more specific is named. -/
def within (error : ParseError) (context : ParseContext) : ParseError :=
  match error.context with
  | none => { error with context := some context }
  | some _ => error

def diagnostic (error : ParseError) : Diagnostic where
  code := error.fault.code
  message := error.fault.message
  labels := ⟨.primary, error.span, error.fault.label⟩ :: error.fault.related
  notes :=
    match error.context with
    | some context => ["while parsing " ++ context.description]
    | none => []
  suggestions := error.fault.help

theorem primarySpan?_diagnostic (error : ParseError) :
    error.diagnostic.primarySpan? = some error.span :=
  rfl

end ParseError

end ChainScript
