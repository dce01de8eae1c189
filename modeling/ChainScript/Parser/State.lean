import ChainScript.Cursor
import ChainScript.Outcome
import ChainScript.Syntax

/-
What a parser carries along: its place in the tokens, the tables it fills, and
the number of loops around it in the current function.
-/

namespace ChainScript

structure ParserState where
  cursor : Cursor
  program : Program
  loopDepth : Nat
deriving Repr, DecidableEq

/-- A parser of an `α`. -/
abbrev Parse (α : Type) : Type :=
  Step ParserState ParseError α

namespace Parse

variable {α : Type}

/-- Read off the cursor. -/
def look (f : Cursor → α) : Parse α :=
  Step.read fun state => f state.cursor

/-- Move the cursor. -/
def move (f : Cursor → Cursor) : Parse Unit :=
  Step.modify fun state => { state with cursor := f state.cursor }

def kind : Parse TokenKind :=
  look Cursor.kind

def span : Parse Span :=
  look Cursor.span

def previousSpan : Parse Span :=
  look Cursor.previousSpan

def check (kind : TokenKind) : Parse Bool :=
  look fun cursor => cursor.check kind

def skipNewlines : Parse Unit :=
  move Cursor.skipNewlines

/-- Consume the current token and return it. -/
def advance : Parse Token :=
  Step.update fun state =>
    (state.cursor.current, { state with cursor := state.cursor.advance })

def eat (kind : TokenKind) : Parse Bool :=
  Step.update fun state =>
    let (found, cursor) := state.cursor.eat kind
    (found, { state with cursor })

/-- Run a fallible operation of the cursor. -/
def ofCursor (f : Cursor → Except ParseError α × Cursor) : Parse α :=
  fun state =>
    match f state.cursor with
    | (.ok value, cursor) => (.ok value, { state with cursor })
    | (.error error, cursor) => (.error error, { state with cursor })

def expect (kind : TokenKind) : Parse Token :=
  ofCursor fun cursor => cursor.expect kind

def expectIdent : Parse String :=
  ofCursor Cursor.expectIdent

/-- End with a fault at the current token. -/
def fault (cause : TokenKind → ParseFault) : Parse α :=
  fun state =>
    (.error { fault := cause state.cursor.kind, span := state.cursor.span },
      state)

/-- End with a fault at a given place. -/
def faultAt (span : Span) (cause : ParseFault) : Parse α :=
  Step.fail { fault := cause, span }

/-- Name what is being parsed in an error. -/
def within (context : ParseContext) (parser : Parse α) : Parse α :=
  Step.mapError (fun error => error.within context) parser

/-- Run a parser in a region where line feeds count or not. -/
def inRegion (newlinesCount : Bool) (parser : Parse α) : Parse α := do
  move fun cursor => cursor.push newlinesCount
  Step.finally_ parser fun state =>
    { state with cursor := state.cursor.pop }

/-- Run a parser for the body of a loop. -/
def inLoop (parser : Parse α) : Parse α := do
  Step.modify fun state => { state with loopDepth := state.loopDepth + 1 }
  Step.finally_ parser fun state =>
    { state with loopDepth := state.loopDepth - 1 }

/-- Run a parser for the body of a function.  Loops around the function do not
reach into it. -/
def inFunction (parser : Parse α) : Parse α := do
  let outer ← Step.read ParserState.loopDepth
  Step.modify fun state => { state with loopDepth := 0 }
  Step.finally_ parser fun state => { state with loopDepth := outer }

/-- Add rows to the tables. -/
def add (f : Program → α × Program) : Parse α :=
  Step.update fun state =>
    let (row, program) := f state.program
    (row, { state with program })

def addExpr (kind : ExprKind) (span : Span) : Parse ExprId :=
  add fun program => program.addExpr ⟨kind, span⟩

def addStmt (kind : StmtKind) (span : Span) : Parse StmtId :=
  add fun program => program.addStmt ⟨kind, span⟩

/-- The expression of a row that was added before. -/
def expr (id : ExprId) : Parse Expr := do
  Step.found (← Step.read fun state => state.program.expr? id)

/-- The place of an expression that was added before. -/
def spanOf (id : ExprId) : Parse Span :=
  return (← expr id).span

/-- One more than the number of tokens left, which bounds the rounds of a loop
that consumes a token in each. -/
def rounds : Parse Nat :=
  look fun cursor => cursor.rest.length + 1

end Parse

/-- The rules of the grammar that refer back to themselves. -/
inductive Rule where
  | expr
  | notExpr
  | signExpr
  | block
  | branch
deriving Repr, DecidableEq

/-- What a rule parses. -/
@[reducible] def Rule.Result : Rule → Type
  | .expr | .notExpr | .signExpr => ExprId
  | .block => Block
  | .branch => StmtKind

/-- Parsers for the rules, to which the rules refer back. -/
abbrev Grammar : Type :=
  (rule : Rule) → Parse rule.Result

end ChainScript
