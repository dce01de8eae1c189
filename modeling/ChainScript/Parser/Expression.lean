import ChainScript.Parser.State

/-
Expressions.  Operators bind in this order, loosest first: assignment, `or`,
`and`, `not`, comparison, `&`, sums, products, signs, and last calls, members
and indices.  Comparisons do not chain; the other binary operators group to
the left.

Every reference back to a rule happens after a token has been consumed.
-/

namespace ChainScript

namespace Parse

/-- The comparison that a token spells. -/
def comparison? : TokenKind → Option BinaryOp
  | .mark .equal => some .equal
  | .mark .notEqual => some .notEqual
  | .mark .less => some .less
  | .mark .lessEqual => some .lessEqual
  | .mark .greater => some .greater
  | .mark .greaterEqual => some .greaterEqual
  | _ => none

/-- The operator of a product that a token spells. -/
def product? : TokenKind → Option BinaryOp
  | .mark .star => some .mul
  | .mark .slash => some .div
  | .mark .percent => some .mod
  | _ => none

/-- The operator of a sum that a token spells. -/
def sum? : TokenKind → Option BinaryOp
  | .mark .plus => some .add
  | .mark .minus => some .sub
  | _ => none

/-- The sign that a token spells. -/
def sign? : TokenKind → Option UnaryOp
  | .mark .minus => some .neg
  | .mark .plus => some .plus
  | _ => none

/-- The logical operator that a token spells, if it is the given one. -/
def logical? (word : Keyword) (op : BinaryOp) (kind : TokenKind) :
    Option BinaryOp :=
  if kind = .keyword word then some op else none

/-- A way to join two operands that a token spells. -/
abbrev Joiner : Type :=
  TokenKind → Option (ExprId → ExprId → ExprKind)

/-- Join with a binary operator. -/
def binaryJoiner (operator? : TokenKind → Option BinaryOp) : Joiner :=
  fun kind => (operator? kind).map fun op => ExprKind.binary op

def composeJoiner : Joiner :=
  fun kind => if kind = .mark .ampersand then some .compose else none

/-- The expression of two joined operands, which covers both. -/
def addJoined (join : ExprId → ExprId → ExprKind) (left right : ExprId) :
    Parse ExprId := do
  let span := (← spanOf left).merge (← spanOf right)
  addExpr (join left right) span

/-- Further operands of a chain that groups to the left. -/
def chainFrom (joiner : Joiner) (operand : Parse ExprId) :
    Nat → ExprId → Parse ExprId
  | 0, _ => Step.halt .exhausted
  | rounds + 1, left => do
      match joiner (← kind) with
      | none => return left
      | some join =>
          let _ ← advance
          let right ← operand
          chainFrom joiner operand rounds (← addJoined join left right)

/-- Operands joined to the left. -/
def chain (joiner : Joiner) (operand : Parse ExprId) : Parse ExprId := do
  let first ← operand
  chainFrom joiner operand (← rounds) first

/-- The key that a token spells. -/
def keyOf? : TokenKind → Option Key
  | .ident name => some (.badge name)
  | .str text => some (.badge text)
  | .int value =>
      if 0 ≤ value.toInt then some (.index value.toUInt64) else none
  | _ => none

/-- The error of a list that neither goes on nor is closed. -/
def listFault {α : Type} (opener : TokenKind) (place : Span)
    (close : TokenKind) : Parse α :=
  fault fun found =>
    if found = .eof then .unclosed opener place found
    else .unexpected (.commaOr close) found

variable (grammar : Grammar)

/-- An entry of an array literal or an argument list. -/
def entry : Parse Entry := do
  let start ← span
  if ← eat (.mark .ellipsis) then
    let name ← expectIdent
    return ⟨.expand name, start.merge (← previousSpan)⟩
  else
    match keyOf? (← kind), ← look fun cursor => cursor.peek 1 with
    | some key, .mark .colon =>
        let _ ← advance
        let _ ← advance
        let value ← grammar .expr
        return ⟨.keyed key value, start.merge (← spanOf value)⟩
    | _, _ =>
        let value ← grammar .expr
        return ⟨.item value, ← spanOf value⟩

/-- The entries up to `close`, and whether a comma comes after the last one.
The flag given is the answer if there are no more entries. -/
def entriesFrom (opener : TokenKind) (place : Span) (close : TokenKind) :
    Nat → Bool → Parse (List Entry × Bool)
  | 0, _ => Step.halt .exhausted
  | rounds + 1, comma => do
      if ← check close then
        return ([], comma)
      else
        let first ← entry grammar
        let comma ← eat (.mark .comma)
        if !comma && !(← check close) then
          listFault opener place close
        else
          let (others, last) ← entriesFrom opener place close rounds comma
          return (first :: others, last)

/-- A list of entries and its delimiters: the entries, whether a comma comes
after the last one, and the place of the whole. -/
def delimited (opener close : TokenKind) : Parse (List Entry × Bool × Span) := do
  let place ← span
  let (entries, comma) ← inRegion false do
    let _ ← advance
    entriesFrom grammar opener place close (← rounds) false
  let last ← expect close
  return (entries, comma, place.merge last.span)

def addEntries (entries : List Entry) : Parse EntryRange :=
  add fun program => program.addEntries entries

/-- An array literal. -/
def arrayLiteral : Parse ExprId :=
  within .arrayLiteral do
    let (entries, _, span) ←
      delimited grammar (.mark .openBracket) (.mark .closeBracket)
    addExpr (.array (← addEntries entries)) span

/-- A group or an argument list.  A single plain entry without a comma after
it is a group, which is the expression itself. -/
def parenthesised : Parse ExprId := do
  let (entries, comma, span) ← within .argumentList
    (delimited grammar (.mark .openParen) (.mark .closeParen))
  match entries, comma with
  | [⟨.item inner, _⟩], false => return inner
  | _, _ => addExpr (.args (← addEntries entries)) span

/-- A key in scope. -/
def badge : Parse ExprId := do
  let start := (← advance).span
  let token ← look Cursor.current
  match keyOf? token.kind with
  | none => fault (.unexpected .badgeKey)
  | some key =>
      let _ ← advance
      addExpr (.badge key) (start.merge token.span)

/-- The default of a parameter, if one is written. -/
def default? : Parse (Option ExprId) := do
  if ← eat (.mark .assign) then
    return some (← grammar .expr)
  else
    return none

/-- A parameter.  A rest parameter has no default. -/
def param : Parse Param := do
  let start ← span
  let rest ← eat (.mark .ellipsis)
  let name ← expectIdent
  let default ← if rest then pure none else default? grammar
  return ⟨name, default, rest, start.merge (← previousSpan)⟩

/-- The parameters of a list up to its close. -/
def paramsFrom (place : Span) : Nat → Parse (List Param)
  | 0 => Step.halt .exhausted
  | rounds + 1 => do
      if ← check (.mark .closeParen) then
        return []
      else
        let first ← param grammar
        let last ← check (.mark .closeParen)
        if first.rest && !last then
          fault (.unexpected .closeAfterRest)
        else
          let comma ← eat (.mark .comma)
          if !comma && !last then
            listFault (.mark .openParen) place (.mark .closeParen)
          else
            return first :: (← paramsFrom place rounds)

/-- A parameter list. -/
def params : Parse (List Param) := do
  let place ← span
  let _ ← expect (.mark .openParen)
  let params ← inRegion false do
    paramsFrom grammar place (← rounds)
  let _ ← expect (.mark .closeParen)
  return params

/-- The parameters and the body of a function. -/
def functionRest (name : String) (start : Span) : Parse FuncId := do
  let params ← within .functionParams (params grammar)
  let body ← inFunction (grammar .block)
  let params ← add fun program => program.addParams params
  add fun program =>
    program.addFunc ⟨name, params, body, start.merge body.span⟩

/-- A function expression. -/
def functionExpr : Parse ExprId :=
  within .functionExpression do
    let start := (← advance).span
    let definition ← functionRest grammar "" start
    addExpr (.func definition) (start.merge (← previousSpan))

/-- The literal or name that a token spells. -/
def simple? : TokenKind → Option ExprKind
  | .keyword .nullKw => some .null
  | .keyword .trueKw => some (.bool true)
  | .keyword .falseKw => some (.bool false)
  | .int value => some (.int value)
  | .float value => some (.float value)
  | .str text => some (.str text)
  | .ident name => some (.ident name)
  | _ => none

/-- An expression without operators. -/
def atom : Parse ExprId := do
  match ← kind with
  | .mark .badge => badge
  | .mark .openBracket => arrayLiteral grammar
  | .mark .openParen => parenthesised grammar
  | .keyword .funcKw => functionExpr grammar
  | found =>
      match simple? found with
      | none => fault .expectedExpression
      | some simple =>
          let token ← advance
          addExpr simple token.span

/-- A call of `callee`. -/
def call (callee : ExprId) : Parse ExprId :=
  within .functionCall do
    let (entries, _, span) ←
      delimited grammar (.mark .openParen) (.mark .closeParen)
    let args ← addEntries entries
    addExpr (.call callee args) ((← spanOf callee).merge span)

/-- A member of `receiver`. -/
def member (receiver : ExprId) : Parse ExprId :=
  within .memberAccess do
    let _ ← advance
    let token ← look Cursor.current
    let key? : Option Key :=
      match token.kind with
      | .ident name => some (.badge name)
      | .int value =>
          some (.index (if 0 ≤ value.toInt then value.toUInt64 else 0))
      | _ => none
    match key? with
    | none => fault (.unexpected .memberKey)
    | some key =>
        let _ ← advance
        addExpr (.member receiver key)
          ((← spanOf receiver).merge token.span)

/-- A computed member of `receiver`. -/
def index (receiver : ExprId) : Parse ExprId :=
  within .indexExpression do
    let place ← span
    let key ← inRegion false do
      let _ ← advance
      grammar .expr
    if ← check (.mark .closeBracket) then
      let last ← advance
      addExpr (.index receiver key) ((← spanOf receiver).merge last.span)
    else
      listFault (.mark .openBracket) place (.mark .closeBracket)

/-- Calls, members and indices after an expression. -/
def postfixFrom : Nat → ExprId → Parse ExprId
  | 0, _ => Step.halt .exhausted
  | rounds + 1, expr => do
      match ← kind with
      | .mark .openParen => postfixFrom rounds (← call grammar expr)
      | .mark .dot => postfixFrom rounds (← member expr)
      | .mark .openBracket => postfixFrom rounds (← index grammar expr)
      | _ => return expr

def postfixExpr : Parse ExprId := do
  let first ← atom grammar
  postfixFrom grammar (← rounds) first

/-- An operand of an operator written in front of it. -/
def addUnary (op : UnaryOp) (start : Span) (operand : ExprId) : Parse ExprId := do
  addExpr (.unary op operand) (start.merge (← spanOf operand))

/-- A signed expression. -/
def signExpr : Parse ExprId := do
  match sign? (← kind) with
  | none => postfixExpr grammar
  | some op =>
      let start := (← advance).span
      addUnary op start (← grammar .signExpr)

def productExpr : Parse ExprId :=
  chain (binaryJoiner product?) (signExpr grammar)

def sumExpr : Parse ExprId :=
  chain (binaryJoiner sum?) (productExpr grammar)

def composeExpr : Parse ExprId :=
  chain composeJoiner (sumExpr grammar)

/-- At most one comparison. -/
def relationExpr : Parse ExprId := do
  let left ← composeExpr grammar
  match comparison? (← kind) with
  | none => return left
  | some op =>
      let _ ← advance
      let right ← composeExpr grammar
      if (comparison? (← kind)).isSome then
        fault fun _ => .chainedComparison
      else
        addJoined (.binary op) left right

/-- A negated condition. -/
def notExpr : Parse ExprId := do
  if ← check (.keyword .notKw) then
    let start := (← advance).span
    addUnary .not start (← grammar .notExpr)
  else
    relationExpr grammar

def andExpr : Parse ExprId :=
  chain (binaryJoiner (logical? .andKw .and)) (notExpr grammar)

def orExpr : Parse ExprId :=
  chain (binaryJoiner (logical? .orKw .or)) (andExpr grammar)

/-- The key that an expression denotes as the target of an assignment. -/
def target? : ExprKind → Option Key
  | .ident name => some (.badge name)
  | .badge key => some key
  | _ => none

/-- An assignment, which groups to the right, or anything tighter. -/
def assignExpr : Parse ExprId := do
  let left ← orExpr grammar
  if ← check (.mark .assign) then
    let target ← expr left
    match target? target.kind with
    | none => faultAt target.span .invalidTarget
    | some key =>
        let _ ← advance
        let value ← grammar .expr
        addExpr (.assign key value) (target.span.merge (← spanOf value))
  else
    return left

end Parse

end ChainScript
