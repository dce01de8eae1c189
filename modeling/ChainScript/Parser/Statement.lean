import ChainScript.Parser.Expression

/-
Statements, blocks and whole scripts.  A statement ends at a line feed or a
semicolon, or in front of the brace that closes its block.  The words `elif`,
`else` and `catch` may stand on a later line than the brace before them.
-/

namespace ChainScript

namespace Parse

/-- End a statement.  A closing brace and the end of the script are left for
the rule around the statement. -/
def statementEnd : Parse Unit := do
  match ← kind with
  | .newline | .mark .semicolon =>
      let _ ← advance
      return ()
  | .mark .closeBrace | .eof => return ()
  | _ => fault (.unexpected .endOfStatement)

/-- A statement cannot go on here. -/
def endsStatement : TokenKind → Bool
  | .newline | .mark .semicolon | .mark .closeBrace | .eof => true
  | _ => false

/-- Consume a word if it is the next token after any line feeds. -/
def eatContinuation (word : Keyword) : Parse Bool := do
  if (← look Cursor.peekPastNewlines) = .keyword word then
    skipNewlines
    let _ ← advance
    return true
  else
    return false

variable (grammar : Grammar)

/-- The expression after `return` or `raise`. -/
def optionalExpr : Parse (Option ExprId) := do
  if endsStatement (← kind) then
    return none
  else
    return some (← grammar .expr)

/-- `break` or `continue`, which need a loop around them. -/
def loopExit (form : StmtKind) : Parse StmtKind := do
  if (← Step.read ParserState.loopDepth) = 0 then
    fault .outsideLoop
  else
    let _ ← advance
    return form

/-- A statement without a block. -/
def smallStatement : Parse StmtKind := do
  match ← kind with
  | .keyword .returnKw =>
      let _ ← advance
      return .return (← optionalExpr grammar)
  | .keyword .raiseKw =>
      let _ ← advance
      return .raise (← optionalExpr grammar)
  | .keyword .breakKw => loopExit .break
  | .keyword .continueKw => loopExit .continue
  | _ => return .expr (← assignExpr grammar)

def addStmtList (stmts : List StmtId) : Parse StmtRange :=
  add fun program => program.addStmtList stmts

/-- A block that holds the single statement of a further branch. -/
def branchBlock (form : StmtKind) (span : Span) : Parse Block := do
  let stmt ← addStmt form span
  return ⟨← addStmtList [stmt], span⟩

/-- The other branch of a conditional.  A further condition is a conditional in
a block of its own. -/
def otherBranch : Parse (Option Block) := do
  if (← look Cursor.peekPastNewlines) = .keyword .elifKw then
    skipNewlines
    let start ← span
    let nested ← grammar .branch
    return some (← branchBlock nested (start.merge (← previousSpan)))
  else if ← eatContinuation .elseKw then
    return some (← grammar .block)
  else
    return none

/-- A conditional, from its `if` or `elif` on. -/
def branch : Parse StmtKind := do
  let _ ← advance
  let condition ← assignExpr grammar
  let thenBlock ← grammar .block
  return .branch condition thenBlock (← otherBranch grammar)

/-- The variables of a loop: a key, if there is one, and a value. -/
def loopVariables : Parse (Option String × String) := do
  let first ← expectIdent
  if ← eat (.mark .comma) then
    return (some first, ← expectIdent)
  else
    return (none, first)

/-- A loop. -/
def loop : Parse StmtKind := do
  let _ ← advance
  let (key, value) ← loopVariables
  let _ ← expect (.keyword .inKw)
  let iterated ← assignExpr grammar
  let body ← inLoop (grammar .block)
  return .loop key value iterated body

/-- Further names after a comma. -/
def namesFrom : Nat → Parse (List String)
  | 0 => Step.halt .exhausted
  | rounds + 1 => do
      if ← eat (.mark .comma) then
        let name ← expectIdent
        return name :: (← namesFrom rounds)
      else
        return []

/-- The names between `catch` and its block: a variable, or fault kinds and a
variable. -/
def catchHead : Parse (Option String × NameRange) := do
  match ← look Cursor.ident? with
  | none => return (none, ← Step.read fun state => state.program.noNames)
  | some _ =>
      let place ← span
      let first ← expectIdent
      let others ← namesFrom (← rounds)
      if ← eat (.keyword .asKw) then
        let binding ← expectIdent
        let kinds ← add fun program => program.addNames (first :: others)
        return (some binding, kinds)
      else
        match others with
        | [] =>
            if FaultKind.isName first then
              faultAt place (.kindAsBinding first)
            else
              return (some first,
                ← Step.read fun state => state.program.noNames)
        | _ :: _ => fault (.unexpected (.token (.keyword .asKw)))

def catchClause : Parse CatchClause := do
  let (binding, kinds) ← catchHead
  let body ← grammar .block
  return ⟨binding, kinds, body⟩

/-- A block whose faults are recovered from. -/
def attempt : Parse StmtKind := do
  let _ ← advance
  let body ← grammar .block
  if ← eatContinuation .catchKw then
    return .attempt body (← within .catchClause (catchClause grammar))
  else
    fault (.unexpected (.token (.keyword .catchKw)))

/-- A block that uses a resource. -/
def resource : Parse StmtKind := do
  let _ ← advance
  let acquired ← assignExpr grammar
  let named ← eat (.keyword .asKw)
  let binding ← if named then some <$> expectIdent else pure none
  let body ← grammar .block
  return .resource acquired binding body

/-- A function statement. -/
def funcBlock : Parse StmtKind := do
  let start := (← advance).span
  let name ← expectIdent
  return .funcBlock name (← functionRest grammar name start)

/-- A block whose bindings extend a named array. -/
def inheritBlock : Parse StmtKind := do
  let _ ← advance
  let name ← expectIdent
  let _ ← expect (.keyword .fromKw)
  let parent ← expectIdent
  return .inheritBlock name parent (← grammar .block)

/-- A name bound to the value of a block. -/
def assignBlock (name : String) : Parse StmtKind := do
  let _ ← advance
  let _ ← advance
  return .assignBlock name (← grammar .block)

def doBlock : Parse StmtKind := do
  let _ ← advance
  return .scope (← grammar .block)

/-- Look ahead: a function statement starts here. -/
def startsFuncBlock (cursor : Cursor) : Bool :=
  match cursor.peek 1 with
  | .ident _ => true
  | _ => false

/-- Look ahead: an assignment of a block starts here. -/
def startsAssignBlock (cursor : Cursor) : Bool :=
  cursor.peek 1 = .mark .assign && cursor.peek 2 = .mark .openBrace

/-- The form of a statement. -/
def statementForm : Parse StmtKind := do
  let cursor ← look id
  match cursor.kind with
  | .keyword .ifKw => within .ifStatement (branch grammar)
  | .keyword .doKw => within .doStatement (doBlock grammar)
  | .keyword .forKw => within .forLoop (loop grammar)
  | .keyword .tryKw => within .tryStatement (attempt grammar)
  | .keyword .withKw => within .withStatement (resource grammar)
  | .keyword .inheritKw => within .inheritBlock (inheritBlock grammar)
  | .keyword .funcKw =>
      if startsFuncBlock cursor then
        within .funcBlock (funcBlock grammar)
      else
        smallStatement grammar
  | .ident name =>
      if startsAssignBlock cursor then
        within .assignBlock (assignBlock grammar name)
      else
        smallStatement grammar
  | _ => smallStatement grammar

/-- A statement and its end. -/
def statement : Parse StmtId := do
  let start ← span
  let form ← statementForm grammar
  let stmt ← addStmt form (start.merge (← previousSpan))
  statementEnd
  return stmt

/-- The statements up to `stop`, which is left. -/
def statementsFrom (stop : TokenKind) : Nat → Parse (List StmtId)
  | 0 => Step.halt .exhausted
  | rounds + 1 => do
      skipNewlines
      if (← check stop) || (← check .eof) then
        return []
      else
        let first ← statement grammar
        return first :: (← statementsFrom stop rounds)

/-- A block and its braces. -/
def block : Parse Block :=
  within .block do
    if ← check (.mark .openBrace) then
      let place ← span
      let stmts ← inRegion true do
        let _ ← advance
        statementsFrom grammar (.mark .closeBrace) (← rounds)
      if ← check (.mark .closeBrace) then
        let last ← advance
        return ⟨← addStmtList stmts, place.merge last.span⟩
      else
        fault (.unclosed (.mark .openBrace) place)
    else
      fault .expectedBlock

/-- A whole script. -/
def script : Parse Script :=
  within .script do
    let start ← span
    let stmts ← statementsFrom grammar .eof (← rounds)
    let span := start.merge (← span)
    return ⟨← addStmtList stmts, span⟩

end Parse

end ChainScript
