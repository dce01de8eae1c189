import ChainScript.Fault
import ChainScript.Proofs.Printing

/-
The concrete grammar of scripts, production by production.

Phrases are derived over the kinds of tokens.  Line feeds that say nothing are
taken out beforehand, so inside parentheses and brackets there are none; in
front of `elif`, `else` and `catch` the grammar allows for them itself.  A
statement list is derived with or without a loop around it in the same
function.

There are three dialects.  The documented one takes the grammar by its letter:
statements with blocks follow each other without an end, and semicolons stand
between statements without blocks.  In the uniform dialect every statement has
an end.  The lenient one also has a comma after the last parameter and
assignment targets in parentheses.
-/

namespace ChainScript

/-- The first of some kinds; past the end there is only end of file. -/
def firstOf (kinds : List TokenKind) : TokenKind :=
  kinds.headD .eof

@[simp] theorem firstOf_nil : firstOf [] = .eof :=
  rfl

@[simp] theorem firstOf_cons (kind : TokenKind) (kinds : List TokenKind) :
    firstOf (kind :: kinds) = kind :=
  rfl

/-- What a language may do differently. -/
structure Dialect where
  /-- Each statement ends at a line feed, at a semicolon or with the list it is
  in, whether it has blocks or not. -/
  endsAll : Bool
  /-- A comma may come after the last parameter. -/
  looseComma : Bool
  /-- The target of an assignment may stand in parentheses. -/
  wrapsTargets : Bool

namespace Dialect

def documented : Dialect :=
  ⟨false, false, false⟩

def uniform : Dialect :=
  ⟨true, false, false⟩

def lenient : Dialect :=
  ⟨true, true, true⟩

end Dialect

/-- The phrases of the grammar.  The flags tell whether there is a loop around
the phrase in the same function. -/
inductive Phrase where
  | script
  | statements (inLoop : Bool)
  | statement (inLoop : Bool)
  /-- Statements without blocks, separated by semicolons. -/
  | inline (inLoop : Bool)
  | small (inLoop : Bool)
  | compound (inLoop : Bool)
  /-- What may come after the first block of a conditional. -/
  | branches (inLoop : Bool)
  | block (inLoop : Bool)
  | expr (level : Precedence)
  /-- Further operands, each after an operator of the level. -/
  | operands (level : Precedence)
  | atom
  /-- Calls, members and indices. -/
  | suffixes
  | entries
  | entry
  /-- Parameters between their parentheses. -/
  | params
  /-- A parameter that is not a rest parameter. -/
  | param

namespace Precedence

/-- The tokens of the binary operators. -/
def operators : Precedence → List TokenKind
  | .or => [.keyword .orKw]
  | .and => [.keyword .andKw]
  | .relation =>
      [.mark .equal, .mark .notEqual, .mark .less, .mark .lessEqual,
        .mark .greater, .mark .greaterEqual]
  | .compose => [.mark .ampersand]
  | .sum => [.mark .plus, .mark .minus]
  | .product => [.mark .star, .mark .slash, .mark .percent]
  | _ => []

/-- Any number of operators of the level may follow each other. -/
def chains : Precedence → Bool
  | .or | .and | .compose | .sum | .product => true
  | _ => false

/-- An expression of the level need not have an operator, and has one at
most. -/
def isOptional : Precedence → Bool
  | .assign | .not | .relation | .sign => true
  | _ => false

end Precedence

namespace TokenKind

/-- The token is a literal. -/
def isLiteral : TokenKind → Bool
  | .keyword .nullKw | .keyword .trueKw | .keyword .falseKw => true
  | .int _ | .float _ | .str _ => true
  | _ => false

/-- The token is a key of an entry or in scope. -/
def isKey : TokenKind → Bool
  | .ident _ | .int _ | .str _ => true
  | _ => false

/-- The token is a member after a dot. -/
def isMember : TokenKind → Bool
  | .ident _ | .int _ => true
  | _ => false

end TokenKind

def isBreak (kind : TokenKind) : Bool :=
  kind == .newline

/-- Any number of line feeds. -/
def Breaks (gap : List TokenKind) : Prop :=
  ∀ kind ∈ gap, kind = .newline

/-- Further names, each after a comma. -/
def furtherNames (names : List String) : List TokenKind :=
  names.flatMap fun name => [.mark .comma, .ident name]

/-- The variables of a loop. -/
inductive LoopVariables : List TokenKind → Prop
  | value (name : String) : LoopVariables [.ident name]
  | both (key value : String) :
      LoopVariables [.ident key, .mark .comma, .ident value]

/-- What stands between `catch` and its block. -/
inductive CatchNames : List TokenKind → Prop
  | none : CatchNames []
  | binding (name : String) (hkind : FaultKind.isName name = false) :
      CatchNames [.ident name]
  | kinds (kind : String) (others : List String) (name : String) :
      CatchNames (.ident kind ::
        (furtherNames others ++ [.keyword .asKw, .ident name]))

/-- The target of an assignment. -/
inductive Target (dialect : Dialect) : List TokenKind → Prop
  | ident (name : String) : Target dialect [.ident name]
  | badge (key : TokenKind) (hkey : key.isKey = true) :
      Target dialect [.mark .badge, key]
  | wrapped (target : List TokenKind) (hwraps : dialect.wrapsTargets = true)
      (htarget : Target dialect target) :
      Target dialect (.mark .openParen :: (target ++ [.mark .closeParen]))

/-- Which lists of tokens are phrases of a dialect. -/
inductive Derives (dialect : Dialect) : Phrase → List TokenKind → Prop
  | script {body : List TokenKind}
      (hbody : Derives dialect (.statements false) body) :
      Derives dialect .script (body ++ [.eof])
  -- statements, with the line feeds between them
  | noStatement {inLoop : Bool} {gap : List TokenKind} (hgap : Breaks gap) :
      Derives dialect (.statements inLoop) gap
  | lastStatement {inLoop : Bool} {gap stmt : List TokenKind}
      (hends : dialect.endsAll = true) (hgap : Breaks gap)
      (hstmt : Derives dialect (.statement inLoop) stmt) :
      Derives dialect (.statements inLoop) (gap ++ stmt)
  | nextStatement {inLoop : Bool} {gap stmt others : List TokenKind}
      (last : TokenKind) (hends : dialect.endsAll = true) (hgap : Breaks gap)
      (hstmt : Derives dialect (.statement inLoop) stmt)
      (hlast : last ∈ [.newline, .mark .semicolon])
      (hothers : Derives dialect (.statements inLoop) others) :
      Derives dialect (.statements inLoop) (gap ++ stmt ++ last :: others)
  | nextCompound {inLoop : Bool} {gap stmt others : List TokenKind}
      (hends : dialect.endsAll = false) (hgap : Breaks gap)
      (hstmt : Derives dialect (.compound inLoop) stmt)
      (hothers : Derives dialect (.statements inLoop) others) :
      Derives dialect (.statements inLoop) (gap ++ stmt ++ others)
  | lastInline {inLoop : Bool} {gap stmts : List TokenKind}
      (hends : dialect.endsAll = false) (hgap : Breaks gap)
      (hstmts : Derives dialect (.inline inLoop) stmts) :
      Derives dialect (.statements inLoop) (gap ++ stmts)
  | nextInline {inLoop : Bool} {gap stmts others : List TokenKind}
      (hends : dialect.endsAll = false) (hgap : Breaks gap)
      (hstmts : Derives dialect (.inline inLoop) stmts)
      (hothers : Derives dialect (.statements inLoop) others) :
      Derives dialect (.statements inLoop) (gap ++ stmts ++ .newline :: others)
  | inlineOne {inLoop : Bool} {stmt : List TokenKind}
      (hstmt : Derives dialect (.small inLoop) stmt) :
      Derives dialect (.inline inLoop) stmt
  | inlineClosed {inLoop : Bool} {stmt : List TokenKind}
      (hstmt : Derives dialect (.small inLoop) stmt) :
      Derives dialect (.inline inLoop) (stmt ++ [.mark .semicolon])
  | inlineMore {inLoop : Bool} {stmt others : List TokenKind}
      (hstmt : Derives dialect (.small inLoop) stmt)
      (hothers : Derives dialect (.inline inLoop) others) :
      Derives dialect (.inline inLoop) (stmt ++ .mark .semicolon :: others)
  | ofSmall {inLoop : Bool} {stmt : List TokenKind}
      (hstmt : Derives dialect (.small inLoop) stmt) :
      Derives dialect (.statement inLoop) stmt
  | ofCompound {inLoop : Bool} {stmt : List TokenKind}
      (hstmt : Derives dialect (.compound inLoop) stmt) :
      Derives dialect (.statement inLoop) stmt
  -- statements without blocks
  | leave {inLoop : Bool} (word : Keyword)
      (hword : word ∈ [Keyword.returnKw, .raiseKw]) :
      Derives dialect (.small inLoop) [.keyword word]
  | leaveWith {inLoop : Bool} {value : List TokenKind} (word : Keyword)
      (hword : word ∈ [Keyword.returnKw, .raiseKw])
      (hvalue : Derives dialect (.expr .assign) value) :
      Derives dialect (.small inLoop) (.keyword word :: value)
  | loopExit (word : Keyword)
      (hword : word ∈ [Keyword.breakKw, .continueKw]) :
      Derives dialect (.small true) [.keyword word]
  | evaluate {inLoop : Bool} {value : List TokenKind}
      (hvalue : Derives dialect (.expr .assign) value) :
      Derives dialect (.small inLoop) value
  -- statements with blocks
  | branch {inLoop : Bool} {condition body others : List TokenKind}
      (hcondition : Derives dialect (.expr .assign) condition)
      (hbody : Derives dialect (.block inLoop) body)
      (hothers : Derives dialect (.branches inLoop) others) :
      Derives dialect (.compound inLoop)
        (.keyword .ifKw :: (condition ++ body ++ others))
  | scope {inLoop : Bool} {body : List TokenKind}
      (hbody : Derives dialect (.block inLoop) body) :
      Derives dialect (.compound inLoop) (.keyword .doKw :: body)
  | loop {inLoop : Bool} {bound iterated body : List TokenKind}
      (hbound : LoopVariables bound)
      (hiterated : Derives dialect (.expr .assign) iterated)
      (hbody : Derives dialect (.block true) body) :
      Derives dialect (.compound inLoop) (.keyword .forKw ::
        (bound ++ .keyword .inKw :: (iterated ++ body)))
  | attempt {inLoop : Bool} {body gap head recovery : List TokenKind}
      (hbody : Derives dialect (.block inLoop) body) (hgap : Breaks gap)
      (hhead : CatchNames head)
      (hrecovery : Derives dialect (.block inLoop) recovery) :
      Derives dialect (.compound inLoop) (.keyword .tryKw ::
        (body ++ gap ++ .keyword .catchKw :: (head ++ recovery)))
  | resource {inLoop : Bool} {acquired body : List TokenKind}
      (hacquired : Derives dialect (.expr .assign) acquired)
      (hbody : Derives dialect (.block inLoop) body) :
      Derives dialect (.compound inLoop) (.keyword .withKw :: (acquired ++ body))
  | namedResource {inLoop : Bool} {acquired body : List TokenKind}
      (name : String) (hacquired : Derives dialect (.expr .assign) acquired)
      (hbody : Derives dialect (.block inLoop) body) :
      Derives dialect (.compound inLoop) (.keyword .withKw ::
        (acquired ++ .keyword .asKw :: .ident name :: body))
  | assignBlock {inLoop : Bool} {body : List TokenKind} (name : String)
      (hbody : Derives dialect (.block inLoop) body) :
      Derives dialect (.compound inLoop) (.ident name :: .mark .assign :: body)
  | funcBlock {inLoop : Bool} {params body : List TokenKind} (name : String)
      (hparams : Derives dialect .params params)
      (hbody : Derives dialect (.block false) body) :
      Derives dialect (.compound inLoop) (.keyword .funcKw :: .ident name ::
        .mark .openParen :: (params ++ .mark .closeParen :: body))
  | inheritBlock {inLoop : Bool} {body : List TokenKind} (name parent : String)
      (hbody : Derives dialect (.block inLoop) body) :
      Derives dialect (.compound inLoop) (.keyword .inheritKw :: .ident name ::
        .keyword .fromKw :: .ident parent :: body)
  | noBranch {inLoop : Bool} : Derives dialect (.branches inLoop) []
  | otherwise {inLoop : Bool} {gap body : List TokenKind} (hgap : Breaks gap)
      (hbody : Derives dialect (.block inLoop) body) :
      Derives dialect (.branches inLoop) (gap ++ .keyword .elseKw :: body)
  | otherIf {inLoop : Bool} {gap condition body others : List TokenKind}
      (hgap : Breaks gap)
      (hcondition : Derives dialect (.expr .assign) condition)
      (hbody : Derives dialect (.block inLoop) body)
      (hothers : Derives dialect (.branches inLoop) others) :
      Derives dialect (.branches inLoop)
        (gap ++ .keyword .elifKw :: (condition ++ body ++ others))
  | block {inLoop : Bool} {stmts : List TokenKind}
      (hstmts : Derives dialect (.statements inLoop) stmts) :
      Derives dialect (.block inLoop)
        (.mark .openBrace :: (stmts ++ [.mark .closeBrace]))
  -- operators
  | assign {target value : List TokenKind} (htarget : Target dialect target)
      (hvalue : Derives dialect (.expr .assign) value) :
      Derives dialect (.expr .assign) (target ++ .mark .assign :: value)
  | plain {level : Precedence} {kinds : List TokenKind}
      (hlevel : level.isOptional = true)
      (hkinds : Derives dialect (.expr level.tighter) kinds) :
      Derives dialect (.expr level) kinds
  | negation {operand : List TokenKind}
      (hoperand : Derives dialect (.expr .not) operand) :
      Derives dialect (.expr .not) (.keyword .notKw :: operand)
  | comparison {left right : List TokenKind} (op : TokenKind)
      (hop : op ∈ Precedence.relation.operators)
      (hleft : Derives dialect (.expr .compose) left)
      (hright : Derives dialect (.expr .compose) right) :
      Derives dialect (.expr .relation) (left ++ op :: right)
  | signed {operand : List TokenKind} (sign : TokenKind)
      (hsign : sign ∈ [.mark .plus, .mark .minus])
      (hoperand : Derives dialect (.expr .sign) operand) :
      Derives dialect (.expr .sign) (sign :: operand)
  | chain {level : Precedence} {operand others : List TokenKind}
      (hlevel : level.chains = true)
      (hoperand : Derives dialect (.expr level.tighter) operand)
      (hothers : Derives dialect (.operands level) others) :
      Derives dialect (.expr level) (operand ++ others)
  | noOperand {level : Precedence} : Derives dialect (.operands level) []
  | operand {level : Precedence} {operand others : List TokenKind}
      (op : TokenKind) (hop : op ∈ level.operators)
      (hoperand : Derives dialect (.expr level.tighter) operand)
      (hothers : Derives dialect (.operands level) others) :
      Derives dialect (.operands level) (op :: (operand ++ others))
  | suffixed {kinds suffixes : List TokenKind} (hatom : Derives dialect .atom kinds)
      (hsuffixes : Derives dialect .suffixes suffixes) :
      Derives dialect (.expr .suffix) (kinds ++ suffixes)
  | noSuffix : Derives dialect .suffixes []
  | call {entries others : List TokenKind}
      (hentries : Derives dialect .entries entries)
      (hothers : Derives dialect .suffixes others) :
      Derives dialect .suffixes
        (.mark .openParen :: (entries ++ .mark .closeParen :: others))
  | member {others : List TokenKind} (key : TokenKind)
      (hkey : key.isMember = true) (hothers : Derives dialect .suffixes others) :
      Derives dialect .suffixes (.mark .dot :: key :: others)
  | index {key others : List TokenKind}
      (hkey : Derives dialect (.expr .assign) key)
      (hothers : Derives dialect .suffixes others) :
      Derives dialect .suffixes
        (.mark .openBracket :: (key ++ .mark .closeBracket :: others))
  -- what has no operands
  | literal (kind : TokenKind) (hliteral : kind.isLiteral = true) :
      Derives dialect .atom [kind]
  | name (name : String) : Derives dialect .atom [.ident name]
  | badge (key : TokenKind) (hkey : key.isKey = true) :
      Derives dialect .atom [.mark .badge, key]
  | array {entries : List TokenKind}
      (hentries : Derives dialect .entries entries) :
      Derives dialect .atom
        (.mark .openBracket :: (entries ++ [.mark .closeBracket]))
  -- a group is the case of a single plain expression
  | args {entries : List TokenKind}
      (hentries : Derives dialect .entries entries) :
      Derives dialect .atom
        (.mark .openParen :: (entries ++ [.mark .closeParen]))
  | func {params body : List TokenKind}
      (hparams : Derives dialect .params params)
      (hbody : Derives dialect (.block false) body) :
      Derives dialect .atom (.keyword .funcKw :: .mark .openParen ::
        (params ++ .mark .closeParen :: body))
  -- lists
  | noEntry : Derives dialect .entries []
  | lastEntry {entry : List TokenKind} (hentry : Derives dialect .entry entry) :
      Derives dialect .entries entry
  | nextEntry {entry others : List TokenKind}
      (hentry : Derives dialect .entry entry)
      (hothers : Derives dialect .entries others) :
      Derives dialect .entries (entry ++ .mark .comma :: others)
  | keyed {value : List TokenKind} (key : TokenKind) (hkey : key.isKey = true)
      (hvalue : Derives dialect (.expr .assign) value) :
      Derives dialect .entry (key :: .mark .colon :: value)
  | expand (name : String) :
      Derives dialect .entry [.mark .ellipsis, .ident name]
  | item {value : List TokenKind}
      (hvalue : Derives dialect (.expr .assign) value) :
      Derives dialect .entry value
  | noParam : Derives dialect .params []
  | rest (name : String) :
      Derives dialect .params [.mark .ellipsis, .ident name]
  | lastParam {param : List TokenKind} (hparam : Derives dialect .param param) :
      Derives dialect .params param
  | nextParam {param others : List TokenKind}
      (hparam : Derives dialect .param param)
      (hothers : Derives dialect .params others)
      (hcomma : others = [] → dialect.looseComma = true) :
      Derives dialect .params (param ++ .mark .comma :: others)
  | required (name : String) : Derives dialect .param [.ident name]
  | optional {default : List TokenKind} (name : String)
      (hdefault : Derives dialect (.expr .assign) default) :
      Derives dialect .param (.ident name :: .mark .assign :: default)

end ChainScript
