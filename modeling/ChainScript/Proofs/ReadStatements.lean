import ChainScript.Proofs.ReadExpressions

/-
Statements are read back from their texts, and so are blocks and functions.

Line feeds count wherever a statement stands, also in a block inside of
parentheses.  After a statement comes a line feed, the brace that closes its
block, or the end of the script, and then no word that would go on with it.
-/

namespace ChainScript

open Parse
open TokenKind (ne_eof ne_newline)

/-- The block holds the statements of the tree. -/
abbrev Tree.Fills {inLoop : Bool} (stmts : Tree (.stmts inLoop))
    (program : Program) (block : Block) : Prop :=
  program.StmtsAre block.stmts (stmts.At program)

theorem Tree.Fills.grows {inLoop : Bool} {stmts : Tree (.stmts inLoop)}
    {older newer : Program} {block : Block} (hfills : stmts.Fills older block)
    (hgrows : older.Grows newer) : stmts.Fills newer block :=
  Program.StmtsAre.grows hgrows hfills fun _ hat => hat.grows hgrows

/-- There is a loop around a place where there has to be one. -/
def Setting.Allows (setting : Setting) (inLoop : Bool) : Prop :=
  inLoop = true → setting.loopDepth ≠ 0

/-- The rule for statements reads the text of a list up to its end. -/
def Tree.ReadsStmts {inLoop : Bool} (stmts : Tree (.stmts inLoop)) : Prop :=
  ∀ (depth : Nat) (setting : Setting) (base : Program) (stop : TokenKind)
    (more : List Token) (rounds : Nat),
    setting.newlinesCount = true → setting.Allows inLoop →
    firstKind more = stop → (stop = .mark .closeBrace ∨ stop = .eof) →
    (stmts.write more).length ≤ depth + 1 →
    (stmts.write more).length < rounds →
    Accepts setting base (statementsFrom (grammar depth) stop rounds)
      (stmts.write more) more fun program ids => stmts.At program ids

/-- What comes after a statement ends it. -/
structure AfterStmt (tokens : List Token) : Prop where
  ends : endsStatement (firstKind tokens) = true
  noElif : firstKind (tokens.dropWhile Token.isNewline) ≠ .keyword .elifKw
  noElse : firstKind (tokens.dropWhile Token.isNewline) ≠ .keyword .elseKw

/-- The rule for a statement reads its text. -/
def Tree.ReadsStmt {inLoop : Bool} (stmt : Tree (.stmt inLoop)) : Prop :=
  ∀ (depth : Nat) (setting : Setting) (base : Program) (more : List Token),
    setting.newlinesCount = true → setting.Allows inLoop → AfterStmt more →
    (stmt.write more).length ≤ depth + 1 →
    Accepts setting base (statementForm (grammar depth)) (stmt.write more) more
      fun program form => stmt.At program form

/-- The rule for the other branch of a conditional reads its text. -/
def Tree.ReadsOther {inLoop : Bool} (other : Tree (.other inLoop)) : Prop :=
  ∀ (depth : Nat) (setting : Setting) (base : Program) (more : List Token),
    setting.newlinesCount = true → setting.Allows inLoop → AfterStmt more →
    (other.write more).length ≤ depth + 1 →
    Accepts setting base (otherBranch (grammar depth)) (other.write more) more
      fun program block => other.At program block

theorem AfterStmt.joint? {tokens : List Token} (hafter : AfterStmt tokens) :
    (firstKind tokens).joint? = none := by
  have hends := hafter.ends
  unfold endsStatement at hends
  split at hends
  · next hkind => rw [hkind]; rfl
  · next hkind => rw [hkind]; rfl
  · next hkind => rw [hkind]; rfl
  · next hkind => rw [hkind]; rfl
  · cases hends

/-- Nothing has to be around what needs no loop. -/
theorem Setting.allows_false (setting : Setting) : setting.Allows false :=
  fun hloop => absurd hloop Bool.false_ne_true

theorem Setting.settles {setting : Setting}
    (hcount : setting.newlinesCount = true) (tokens : List Token) :
    setting.Settles tokens :=
  fun hfalse => nomatch hcount.symm.trans hfalse

section Lists

variable {inLoop : Bool} {setting : Setting} {depth : Nat} {base : Program}
  {more : List Token}

/-- After a statement there is a line feed if more of them come. -/
theorem afterStmt (others : Tree (.stmts inLoop)) {stop : TokenKind}
    (hfirst : firstKind more = stop)
    (hstop : stop = .mark .closeBrace ∨ stop = .eof) :
    AfterStmt (preceded (!others.isEmpty) .newline (others.write more)) := by
  cases others with
  | done =>
      have hkind : firstKind more ≠ .newline := by
        rcases hstop with rfl | rfl <;> rw [hfirst] <;> decide
      have hdrop := dropWhile_newlines hkind
      refine ⟨?_, ?_, ?_⟩ <;>
        rcases hstop with rfl | rfl <;>
        simp [Tree.write, preceded, Tree.isEmpty, hdrop, hfirst, endsStatement]
  | next first others =>
      have hstarts := first.startsStmt
        (preceded (!others.isEmpty) .newline (others.write more))
      have hline : firstKind ((first.next others).write more) ≠ .newline :=
        TokenKind.ne_of_startsStmt hstarts rfl
      have hdrop : (preceded (!(first.next others).isEmpty) .newline
          ((first.next others).write more)).dropWhile Token.isNewline =
            (first.next others).write more :=
        dropWhile_newlines hline
      refine ⟨rfl, ?_, ?_⟩
      · rw [hdrop]
        exact TokenKind.ne_of_startsStmt hstarts rfl
      · rw [hdrop]
        exact TokenKind.ne_of_startsStmt hstarts rfl

/-- The end of a statement. -/
theorem passes_statementEnd (others : Tree (.stmts inLoop)) {stop : TokenKind}
    (hcount : setting.newlinesCount = true) (hfirst : firstKind more = stop)
    (hstop : stop = .mark .closeBrace ∨ stop = .eof) :
    Passes setting statementEnd
      (preceded (!others.isEmpty) .newline (others.write more))
      (others.write more) fun _ => True := by
  apply passes_kind.bind
  rintro _ rfl
  cases others with
  | done =>
      simp only [Tree.write, preceded, Tree.isEmpty, Bool.not_true,
        Bool.false_eq_true, if_false, hfirst]
      rcases hstop with rfl | rfl <;> exact passes_pure trivial
  | next first others =>
      refine Passes.bind
        (passes_advance (by decide) (Setting.settles hcount _)) ?_
      rintro _ _
      exact passes_pure trivial

theorem readsStmts_done : (Tree.done : Tree (.stmts inLoop)).ReadsStmts := by
  intro depth setting base stop more rounds _ _ hfirst hstop _ hrounds
  obtain _ | rounds := rounds
  · cases hrounds
  have hline : firstKind more ≠ .newline := by
    rcases hstop with rfl | rfl <;> rw [hfirst] <;> decide
  have hstops : (firstKind more).sameVariant stop = true := by
    rcases hstop with rfl | rfl <;> rw [hfirst] <;> rfl
  apply (passes_skipNewlines hline).andThen
  rintro _ _
  apply (passes_check _).andThen
  rintro _ rfl
  apply (passes_check _).andThen
  rintro _ rfl
  rw [if_pos (by simp [hstops])]
  exact accepts_pure fun _ _ => rfl

theorem readsStmts_next {first : Tree (.stmt inLoop)}
    {others : Tree (.stmts inLoop)} (hstmt : first.ReadsStmt)
    (hothers : others.ReadsStmts) : (Tree.next first others).ReadsStmts := by
  intro depth setting base stop more rounds hcount hallows hfirst hstop hdepth
    hrounds
  obtain _ | rounds := rounds
  · cases hrounds
  have hstarts := first.startsStmt
    (preceded (!others.isEmpty) .newline (others.write more))
  have hkind : ∀ {other : TokenKind}, other.startsStmt = false →
      firstKind (first.write
        (preceded (!others.isEmpty) .newline (others.write more))) ≠ other :=
    TokenKind.ne_of_startsStmt hstarts
  have hlonger := first.longer_write
    (preceded (!others.isEmpty) .newline (others.write more))
  have hline := (longer_refl (others.write more)).preceded (!others.isEmpty)
    .newline
  simp only [Longer, Category.least, Tree.write] at hlonger hline hdepth hrounds
  have hstatement : Accepts setting base (statement (grammar depth))
      (first.write (preceded (!others.isEmpty) .newline (others.write more)))
      (others.write more)
      fun program id => program.StmtIs id (first.At program) := by
    apply (passes_place _).andThen
    intro start _
    apply (hstmt depth setting base _ hcount hallows
      (afterStmt others hfirst hstop) hdepth).bind
    intro program form _ hat
    apply (passes_place _).andThen
    intro last _
    apply (accepts_addStmt _ hat).bind
    intro after id _ hstands
    apply (passes_statementEnd others hcount hfirst hstop).andThen
    rintro _ _
    exact accepts_pure fun _ hgrows =>
      hstands.grows hgrows fun _ hat => hat.grows hgrows
  have hstops : (firstKind (first.write (preceded (!others.isEmpty) .newline
      (others.write more)))).sameVariant stop = false := by
    rcases hstop with rfl | rfl
    · exact TokenKind.sameVariant_mark (hkind rfl)
    · exact TokenKind.sameVariant_eof (hkind rfl)
  apply (passes_skipNewlines (hkind rfl)).andThen
  rintro _ _
  apply (passes_check _).andThen
  rintro _ rfl
  apply (passes_check _).andThen
  rintro _ rfl
  rw [if_neg (by simp [hstops, TokenKind.sameVariant_eof (hkind rfl)])]
  apply hstatement.bind
  intro second id _ hstands
  apply (hothers depth setting second stop more rounds hcount hallows hfirst
    hstop (by omega) (by omega)).bind
  intro third rest hgrows hrest
  exact accepts_pure fun _ hmore => ⟨id, rest, rfl,
    hstands.grows (hgrows.trans hmore) fun _ hat =>
      hat.grows (hgrows.trans hmore), hrest.grows hmore⟩

/-- A reference back to the rule for blocks. -/
theorem accepts_block {body : Tree (.stmts inLoop)} (hbody : body.ReadsStmts)
    (hallows : setting.Allows inLoop)
    (hlength : (braced body.write more).length ≤ depth)
    (hsettles : setting.Settles more) :
    Accepts setting base (grammar depth .block) (braced body.write more) more
      body.Fills := by
  obtain _ | depth := depth
  · cases hlength
  have hshorter := Nat.le_of_succ_le_succ hlength
  apply Accepts.within
  apply (passes_check _).andThen
  rintro _ rfl
  apply (passes_place _).andThen
  intro place _
  have hregion : Accepts setting base
      (inRegion true do
        let _ ← advance
        statementsFrom (grammar depth) (.mark .closeBrace) (← rounds))
      (braced body.write more) (.of (.mark .closeBrace) :: more)
      fun program ids => body.At program ids := by
    refine Accepts.inRegion ?_ fun _ => ne_newline rfl
    refine Passes.andThen
      (passes_advance (ne_eof rfl) (Setting.settles rfl _)) ?_
    rintro _ _
    apply passes_rounds.andThen
    rintro _ rfl
    exact hbody depth _ base _ _ _ rfl hallows rfl (.inl rfl)
      (Nat.le_succ_of_le hshorter) (Nat.lt_succ_self _)
  apply hregion.bind
  intro program ids _ hat
  apply (passes_check _).andThen
  rintro _ rfl
  refine Passes.andThen (passes_advance (ne_eof rfl) hsettles) ?_
  rintro last _
  apply (accepts_addStmtList hat).bind
  intro after range _ hrange
  exact accepts_pure fun _ hgrows =>
    Program.StmtsAre.grows hgrows hrange fun _ hat => hat.grows hgrows

end Lists

section Functions

variable {setting : Setting} {depth : Nat} {base : Program}
  {more : List Token} {params : Tree .params} {body : Tree (.stmts false)}

/-- The parameters and the body of a function. -/
theorem accepts_functionRest (name : String) (start : Span)
    (hparams : params.ReadsParams) (hbody : body.ReadsStmts)
    (hlength : (params.write (.of (.mark .closeParen) ::
      braced body.write more)).length ≤ depth)
    (hsettles : setting.Settles more) :
    Accepts setting base (functionRest (grammar depth) name start)
      (.of (.mark .openParen) ::
        params.write (.of (.mark .closeParen) :: braced body.write more)) more
      fun program id =>
        program.FuncIs id name (params.At program) (body.At program) := by
  have hlonger := params.longer_write
    (.of (.mark .closeParen) :: braced body.write more)
  simp only [Longer, List.length_cons] at hlonger
  have hdepth : (braced body.write more).length ≤ depth := by omega
  apply ((accepts_params hparams hlength fun _ => ne_newline rfl).within _).bind
  intro first rows _ hrows
  have hblock : Accepts setting first (inFunction (grammar depth .block))
      (braced body.write more) more
      body.Fills := by
    apply Accepts.inFunction
    exact accepts_block hbody (Setting.allows_false _) hdepth hsettles
  apply hblock.bind
  intro second block hgrows hstmts
  apply (accepts_addParams (hrows.grows hgrows)).bind
  intro third range hmore hrange
  exact accepts_addFunc hrange (hstmts.grows hmore)

theorem readsAlone_func (hparams : params.ReadsParams)
    (hbody : body.ReadsStmts) : (Tree.func params body).ReadsAlone := by
  intro depth setting base more hlength _ hsettles
  have hshorter := Nat.le_of_succ_le_succ hlength
  apply reaches_atom
  apply passes_kind.andThen
  rintro _ rfl
  apply Accepts.within
  refine Passes.andThen (passes_advance (ne_eof rfl) fun _ => ne_newline rfl) ?_
  rintro start _
  apply (accepts_functionRest "" _ hparams hbody
    (Nat.le_of_succ_le hshorter) hsettles).bind
  intro program id _ hfunc
  apply (passes_place _).andThen
  intro last _
  exact accepts_addExpr _ ⟨id, rfl, hfunc⟩

end Functions

section Forms

variable {inLoop : Bool} {setting : Setting} {depth : Nat} {base : Program}
  {more : List Token}

/-- What is seen of a statement before it is read. -/
theorem passes_cursor {tokens : List Token} :
    Passes setting (look id) tokens tokens fun cursor =>
      cursor.kind = firstKind tokens ∧ ∀ n, cursor.peek n =
        Cursor.peekIn setting.newlinesCount n tokens := by
  refine passes_look fun cursor hrest hmodes => ⟨?_, fun n => ?_⟩
  · exact hrest.firstKind_eq
  · rw [id, Cursor.peek, newlinesCount_eq hmodes, hrest.peekIn_eq]

theorem readsStmt_scope {body : Tree (.stmts inLoop)}
    (hbody : body.ReadsStmts) : (Tree.scope body).ReadsStmt := by
  intro depth setting base more hcount hallows _ hlength
  have hsettles := Setting.settles hcount
  apply passes_cursor.andThen
  rintro cursor ⟨hkind, _⟩
  rw [hkind]
  apply Accepts.within
  refine Passes.andThen (passes_advance (ne_eof rfl) (hsettles _)) ?_
  rintro _ _
  apply (accepts_block hbody hallows (Nat.le_of_succ_le_succ hlength)
    (hsettles more)).bind
  intro program block _ hblock
  exact accepts_pure fun _ hgrows => ⟨block, rfl, hblock.grows hgrows⟩

theorem readsStmt_branch {condition : Tree .expr} {body : Tree (.stmts inLoop)}
    {other : Tree (.other inLoop)} (hcondition : condition.ReadsValue)
    (hbody : body.ReadsStmts) (hother : other.ReadsOther) :
    (Tree.branch condition body other).ReadsStmt := by
  intro depth setting base more hcount hallows hafter hlength
  have hsettles := Setting.settles hcount
  have hblock := Longer.braced body.longer_write (other.write more)
  have hwhole := condition.longer_write (braced body.write (other.write more))
  simp only [Longer, Tree.write, Category.least, List.length_cons] at *
  apply passes_cursor.andThen
  rintro cursor ⟨hkind, _⟩
  rw [hkind]
  apply Accepts.within
  refine Passes.andThen (passes_advance (ne_eof rfl) (hsettles _)) ?_
  rintro _ _
  apply (hcondition depth setting base _ (by omega) rfl (hsettles _)).bind
  intro first id _ hid
  apply (accepts_block hbody hallows (by omega) (hsettles _)).bind
  intro second block hgrows hstmts
  apply (hother depth setting second more hcount hallows hafter (by omega)).bind
  intro third elseBlock hmore helse
  apply accepts_pure
  intro program hlast
  have hall := (hgrows.trans hmore).trans hlast
  exact ⟨id, block, elseBlock, rfl, hid.grows hall,
    hstmts.grows (hmore.trans hlast), helse.grows hlast⟩

/-- A word that stands right here continues a statement. -/
theorem passes_continuation {word : Keyword}
    (hcount : setting.newlinesCount = true) :
    Passes setting (eatContinuation word) (.of (.keyword word) :: more) more
      (· = true) := by
  apply passes_peekPastNewlines.bind
  rintro _ rfl
  have hline : firstKind (.of (.keyword word) :: more) ≠ .newline :=
    ne_newline rfl
  rw [if_pos (by rw [dropWhile_newlines hline]; rfl)]
  refine Passes.bind (passes_skipNewlines hline) ?_
  rintro _ _
  refine Passes.bind (passes_advance (ne_eof rfl) (Setting.settles hcount _)) ?_
  rintro _ _
  exact passes_pure rfl

/-- A word that does not come next is left. -/
theorem passes_noContinuation {word : Keyword}
    (hword : firstKind (more.dropWhile Token.isNewline) ≠ .keyword word) :
    Passes setting (eatContinuation word) more more (· = false) := by
  apply passes_peekPastNewlines.bind
  rintro _ rfl
  rw [if_neg hword]
  exact passes_pure rfl

theorem readsOther_none : (Tree.noOther : Tree (.other inLoop)).ReadsOther := by
  intro depth setting base more _ _ hafter _
  simp only [Tree.write]
  apply passes_peekPastNewlines.andThen
  rintro _ rfl
  rw [if_neg hafter.noElif]
  apply (passes_noContinuation hafter.noElse).andThen
  rintro _ rfl
  exact accepts_pure fun _ _ => rfl

theorem readsOther_otherwise {body : Tree (.stmts inLoop)}
    (hbody : body.ReadsStmts) : (Tree.otherwise body).ReadsOther := by
  intro depth setting base more hcount hallows _ hlength
  apply passes_peekPastNewlines.andThen
  rintro _ rfl
  have hline : firstKind ((Tree.otherwise body).write more) ≠ .newline :=
    ne_newline rfl
  rw [dropWhile_newlines hline, if_neg (by simp [Tree.write])]
  apply (passes_continuation hcount).andThen
  rintro _ rfl
  apply (accepts_block hbody hallows (Nat.le_of_succ_le_succ hlength)
    (Setting.settles hcount more)).bind
  intro program block _ hblock
  exact accepts_pure fun _ hgrows => ⟨block, rfl, hblock.grows hgrows⟩

/-- The variables of a loop, in front of the word after them. -/
theorem passes_loopVariables {key : Option String} {value : String}
    (hcount : setting.newlinesCount = true)
    (hmore : firstKind more ≠ .mark .comma) :
    Passes setting loopVariables (writeVariables key value more) more
      (· = (key, value)) := by
  have hsettles := Setting.settles hcount
  cases key with
  | none =>
      refine Passes.bind (passes_expectIdent rfl (hsettles _)) ?_
      rintro _ rfl
      refine Passes.bind
        (passes_uneaten (TokenKind.sameVariant_mark hmore)) ?_
      rintro _ rfl
      exact passes_pure rfl
  | some key =>
      refine Passes.bind (passes_expectIdent rfl (hsettles _)) ?_
      rintro _ rfl
      refine Passes.bind (passes_eat rfl (ne_eof rfl) (hsettles _)) ?_
      rintro _ rfl
      refine Passes.bind (passes_expectIdent rfl (hsettles _)) ?_
      rintro _ rfl
      exact passes_pure rfl

theorem readsStmt_loop {key : Option String} {value : String}
    {iterated : Tree .expr} {body : Tree (.stmts true)}
    (hiterated : iterated.ReadsValue) (hbody : body.ReadsStmts) :
    (Tree.loop key value iterated body : Tree (.stmt inLoop)).ReadsStmt := by
  intro depth setting base more hcount _ _ hlength
  have hsettles := Setting.settles hcount
  have hblock := Longer.braced body.longer_write more
  have hwhole := iterated.longer_write (braced body.write more)
  have hvariables := longer_writeVariables key value
    (.of (.keyword .inKw) :: iterated.write (braced body.write more))
  simp only [Longer, Tree.write, Category.least, List.length_cons] at *
  apply passes_cursor.andThen
  rintro cursor ⟨hkind, _⟩
  rw [hkind]
  apply Accepts.within
  refine Passes.andThen (passes_advance (ne_eof rfl) (hsettles _)) ?_
  rintro _ _
  refine Passes.andThen (passes_loopVariables hcount (by simp)) ?_
  rintro _ rfl
  refine Passes.andThen (passes_expect rfl (ne_eof rfl) (hsettles _)) ?_
  rintro _ _
  apply (hiterated depth setting base _ (by omega) rfl (hsettles _)).bind
  intro first id _ hid
  have hlooped : Accepts setting first (Parse.inLoop (grammar depth .block))
      (braced body.write more) more body.Fills := by
    apply Accepts.inLoop
    exact accepts_block hbody (fun _ => Nat.succ_ne_zero _) (by omega)
      (hsettles _)
  apply hlooped.bind
  intro second block hgrows hstmts
  exact accepts_pure fun _ hmore => ⟨id, block, rfl,
    hid.grows (hgrows.trans hmore), hstmts.grows hmore⟩

theorem readsStmt_assignBlock {name : String} {body : Tree (.stmts inLoop)}
    (hbody : body.ReadsStmts) : (Tree.assignBlock name body).ReadsStmt := by
  intro depth setting base more hcount hallows _ hlength
  have hsettles := Setting.settles hcount
  apply passes_cursor.andThen
  rintro cursor ⟨hkind, hpeek⟩
  have hstarts : startsAssignBlock cursor = true := by
    rw [startsAssignBlock, hpeek, hpeek, hcount]
    rfl
  rw [hkind]
  simp only [hstarts, if_true]
  apply Accepts.within
  refine Passes.andThen (passes_advance (ne_eof rfl) (hsettles _)) ?_
  rintro _ _
  refine Passes.andThen (passes_advance (ne_eof rfl) (hsettles _)) ?_
  rintro _ _
  apply (accepts_block hbody hallows
    (Nat.le_of_succ_le (Nat.le_of_succ_le_succ hlength)) (hsettles more)).bind
  intro program block _ hblock
  exact accepts_pure fun _ hgrows => ⟨block, rfl, hblock.grows hgrows⟩

theorem readsStmt_funcBlock {name : String} {params : Tree .params}
    {body : Tree (.stmts false)} (hparams : params.ReadsParams)
    (hbody : body.ReadsStmts) :
    (Tree.funcBlock name params body : Tree (.stmt inLoop)).ReadsStmt := by
  intro depth setting base more hcount _ _ hlength
  have hsettles := Setting.settles hcount
  have hshorter := Nat.le_of_succ_le_succ hlength
  apply passes_cursor.andThen
  rintro cursor ⟨hkind, hpeek⟩
  have hstarts : startsFuncBlock cursor = true := by
    rw [startsFuncBlock, hpeek, hcount]
    rfl
  rw [hkind]
  simp only [hstarts, if_true]
  apply Accepts.within
  refine Passes.andThen (passes_advance (ne_eof rfl) (hsettles _)) ?_
  rintro start _
  refine Passes.andThen (passes_expectIdent rfl (hsettles _)) ?_
  rintro _ rfl
  apply (accepts_functionRest _ _ hparams hbody
    (Nat.le_of_succ_le (Nat.le_of_succ_le hshorter)) (hsettles more)).bind
  intro program id _ hfunc
  exact accepts_pure fun _ hgrows => ⟨id, rfl, hfunc.grows hgrows
    (fun _ hat => hat.grows hgrows) fun _ hat => hat.grows hgrows⟩

theorem readsStmt_inheritBlock {name parent : String}
    {body : Tree (.stmts inLoop)} (hbody : body.ReadsStmts) :
    (Tree.inheritBlock name parent body).ReadsStmt := by
  intro depth setting base more hcount hallows _ hlength
  have hsettles := Setting.settles hcount
  have hshorter := Nat.le_of_succ_le_succ hlength
  apply passes_cursor.andThen
  rintro cursor ⟨hkind, _⟩
  rw [hkind]
  apply Accepts.within
  refine Passes.andThen (passes_advance (ne_eof rfl) (hsettles _)) ?_
  rintro _ _
  refine Passes.andThen (passes_expectIdent rfl (hsettles _)) ?_
  rintro _ rfl
  refine Passes.andThen (passes_expect rfl (ne_eof rfl) (hsettles _)) ?_
  rintro _ _
  refine Passes.andThen (passes_expectIdent rfl (hsettles _)) ?_
  rintro _ rfl
  apply (accepts_block hbody hallows (Nat.le_of_succ_le (Nat.le_of_succ_le
    (Nat.le_of_succ_le hshorter))) (hsettles more)).bind
  intro program block _ hblock
  exact accepts_pure fun _ hgrows => ⟨block, rfl, hblock.grows hgrows⟩

/-- The names after the first one of a clause. -/
theorem passes_namesFrom (names : List String) {rounds : Nat}
    (hcount : setting.newlinesCount = true)
    (hmore : firstKind more ≠ .mark .comma)
    (hrounds : (writeNames names more).length < rounds) :
    Passes setting (namesFrom rounds) (writeNames names more) more
      (· = names) := by
  have hsettles := Setting.settles hcount
  induction names generalizing rounds with
  | nil =>
      obtain _ | rounds := rounds
      · cases hrounds
      refine Passes.bind (passes_uneaten (TokenKind.sameVariant_mark hmore)) ?_
      rintro _ rfl
      exact passes_pure rfl
  | cons name names ih =>
      obtain _ | rounds := rounds
      · cases hrounds
      simp only [writeNames, List.length_cons] at hrounds
      refine Passes.bind (passes_eat rfl (ne_eof rfl) (hsettles _)) ?_
      rintro _ rfl
      refine Passes.bind (passes_expectIdent rfl (hsettles _)) ?_
      rintro _ rfl
      refine Passes.bind (ih (by omega)) ?_
      rintro _ rfl
      exact passes_pure rfl

theorem passes_ident? {name : String} {tokens : List Token} :
    Passes setting (look Cursor.ident?) (.of (.ident name) :: tokens)
      (.of (.ident name) :: tokens) (· = some name) :=
  passes_look fun cursor hrest _ => by
    simp [Cursor.ident?, Cursor.kind, hrest.firstKind_eq]

theorem passes_noIdent {symbol : Mark} {tokens : List Token} :
    Passes setting (look Cursor.ident?) (.of (.mark symbol) :: tokens)
      (.of (.mark symbol) :: tokens) (· = none) :=
  passes_look fun cursor hrest _ => by
    simp [Cursor.ident?, Cursor.kind, hrest.firstKind_eq]

/-- What stands between `catch` and its block. -/
theorem accepts_catchHead (head : CatchHead) {tokens : List Token}
    (hcount : setting.newlinesCount = true) :
    Accepts setting base catchHead
      (head.write (.of (.mark .openBrace) :: tokens))
      (.of (.mark .openBrace) :: tokens)
      fun program found => found.1 = head.binding ∧
        program.names? found.2 = some head.kinds := by
  have hsettles := Setting.settles hcount
  cases head with
  | all =>
      apply passes_noIdent.andThen
      rintro _ rfl
      apply accepts_noNames.bind
      intro program range _ hnames
      exact accepts_pure fun _ hgrows => ⟨rfl, hgrows.names? hnames⟩
  | bind name hname =>
      apply passes_ident?.andThen
      rintro _ rfl
      apply (passes_place _).andThen
      intro place _
      refine Passes.andThen (passes_expectIdent rfl (hsettles _)) ?_
      rintro _ rfl
      apply passes_rounds.andThen
      rintro _ rfl
      refine Passes.andThen
        (passes_namesFrom [] hcount (by simp) (Nat.lt_succ_self _)) ?_
      rintro _ rfl
      refine Passes.andThen (passes_uneaten rfl) ?_
      rintro _ rfl
      simp only [Bool.false_eq_true, if_false, hname]
      apply accepts_noNames.bind
      intro program range _ hnames
      exact accepts_pure fun _ hgrows => ⟨rfl, hgrows.names? hnames⟩
  | only first others name =>
      apply passes_ident?.andThen
      rintro _ rfl
      apply (passes_place _).andThen
      intro place _
      refine Passes.andThen (passes_expectIdent rfl (hsettles _)) ?_
      rintro _ rfl
      apply passes_rounds.andThen
      rintro _ rfl
      refine Passes.andThen
        (passes_namesFrom others hcount (by simp) (Nat.lt_succ_self _)) ?_
      rintro _ rfl
      refine Passes.andThen (passes_eat rfl (ne_eof rfl) (hsettles _)) ?_
      rintro _ rfl
      refine Passes.andThen (passes_expectIdent rfl (hsettles _)) ?_
      rintro _ rfl
      apply (accepts_addNames _).bind
      intro program range _ hnames
      exact accepts_pure fun _ hgrows => ⟨rfl, hgrows.names? hnames⟩

theorem readsStmt_attempt {body recovery : Tree (.stmts inLoop)}
    {head : CatchHead} (hbody : body.ReadsStmts)
    (hrecovery : recovery.ReadsStmts) :
    (Tree.attempt body head recovery).ReadsStmt := by
  intro depth setting base more hcount hallows _ hlength
  have hsettles := Setting.settles hcount
  have hlast := Longer.braced recovery.longer_write more
  have hhead := head.longer_write (braced recovery.write more)
  have hfirst := Longer.braced body.longer_write (.of (.keyword .catchKw) ::
    head.write (braced recovery.write more))
  simp only [Longer, Tree.write, Category.least, List.length_cons] at *
  apply passes_cursor.andThen
  rintro cursor ⟨hkind, _⟩
  rw [hkind]
  apply Accepts.within
  refine Passes.andThen (passes_advance (ne_eof rfl) (hsettles _)) ?_
  rintro _ _
  apply (accepts_block hbody hallows (by omega) (hsettles _)).bind
  intro first block _ hblock
  apply (passes_continuation hcount).andThen
  rintro _ rfl
  have hclause : Accepts setting first
      (within .catchClause (catchClause (grammar depth)))
      (head.write (braced recovery.write more)) more
      fun program clause => clause.binding = head.binding ∧
        program.names? clause.kinds = some head.kinds ∧
        recovery.Fills program clause.body := by
    apply Accepts.within
    apply (accepts_catchHead head hcount).bind
    rintro second ⟨binding, kinds⟩ _ ⟨rfl, hkinds⟩
    apply (accepts_block hrecovery hallows (by omega) (hsettles _)).bind
    intro third last hgrows hfills
    exact accepts_pure fun _ hmore =>
      ⟨rfl, (hgrows.trans hmore).names? hkinds, hfills.grows hmore⟩
  apply hclause.bind
  rintro second clause hgrows ⟨hbinding, hkinds, hfills⟩
  exact accepts_pure fun _ hmore => ⟨block, clause, rfl,
    hblock.grows (hgrows.trans hmore), hbinding, hmore.names? hkinds,
    hfills.grows hmore⟩

theorem readsStmt_resource {acquired : Tree .expr} {binding : Option String}
    {body : Tree (.stmts inLoop)} (hacquired : acquired.ReadsValue)
    (hbody : body.ReadsStmts) :
    (Tree.resource acquired binding body).ReadsStmt := by
  intro depth setting base more hcount hallows _ hlength
  have hsettles := Setting.settles hcount
  have hblock := Longer.braced body.longer_write more
  have hbinding := longer_writeBinding binding (braced body.write more)
  have hwhole := acquired.longer_write
    (writeBinding binding (braced body.write more))
  have hjoint : (firstKind (writeBinding binding
      (braced body.write more))).joint? = none := by
    cases binding <;> rfl
  simp only [Longer, Tree.write, Category.least, List.length_cons] at *
  apply passes_cursor.andThen
  rintro cursor ⟨hkind, _⟩
  rw [hkind]
  apply Accepts.within
  refine Passes.andThen (passes_advance (ne_eof rfl) (hsettles _)) ?_
  rintro _ _
  apply (hacquired depth setting base _ (by omega) hjoint (hsettles _)).bind
  intro first id _ hid
  have hrest : Accepts setting first
      (do return .resource id binding (← grammar depth .block))
      (braced body.write more) more
      fun program form =>
        (Tree.resource acquired binding body).At program form := by
    apply (accepts_block hbody hallows (by omega) (hsettles _)).bind
    intro second block hgrows hfills
    exact accepts_pure fun _ hmore => ⟨id, block, rfl,
      hid.grows (hgrows.trans hmore), hfills.grows hmore⟩
  cases binding with
  | none =>
      refine Passes.andThen (passes_uneaten rfl) ?_
      rintro _ rfl
      apply (passes_pure rfl).andThen
      rintro _ rfl
      exact hrest
  | some name =>
      refine Passes.andThen (passes_eat rfl (ne_eof rfl) (hsettles _)) ?_
      rintro _ rfl
      have hname : Passes setting (some <$> expectIdent)
          (.of (.ident name) :: braced body.write more) (braced body.write more)
          (· = some name) := by
        refine Passes.bind (passes_expectIdent rfl (hsettles _)) ?_
        rintro _ rfl
        exact passes_pure rfl
      apply hname.andThen
      rintro _ rfl
      exact hrest

/-- The expression after `return` or `raise`. -/
theorem accepts_optionalExpr {tree : Tree .optional}
    (htree : tree.ReadsOptional) (hcount : setting.newlinesCount = true)
    (hafter : AfterStmt more) (hlength : (tree.write more).length ≤ depth) :
    Accepts setting base (optionalExpr (grammar depth)) (tree.write more) more
      fun program value => tree.At program value := by
  apply passes_kind.andThen
  rintro _ rfl
  cases tree with
  | absent =>
      have hends : endsStatement (firstKind (Tree.absent.write more)) = true :=
        hafter.ends
      rw [if_pos hends]
      exact accepts_pure fun _ _ => rfl
  | present value =>
      have hleads := value.leads more
      have hgoesOn : ¬ endsStatement (firstKind (value.write more)) = true := by
        unfold endsStatement
        split
        · next hkind => exact absurd hkind (hleads.ne rfl)
        · next hkind => exact absurd hkind (hleads.ne rfl)
        · next hkind => exact absurd hkind (hleads.ne rfl)
        · next hkind => exact absurd hkind (hleads.ne rfl)
        · exact Bool.false_ne_true
      rw [Tree.write, if_neg hgoesOn]
      apply ((htree value rfl).expr hlength hafter.joint?
        (Setting.settles hcount more)).bind
      intro program id _ hid
      exact accepts_pure fun _ hgrows => ⟨id, rfl, hid.grows hgrows⟩

/-- A word, and an expression after it that may be missing. -/
theorem accepts_optionalForm {word : Keyword}
    (form : Option ExprId → StmtKind) {tree : Tree .optional}
    (htree : tree.ReadsOptional) (hcount : setting.newlinesCount = true)
    (hafter : AfterStmt more)
    (hlength : (Token.of (.keyword word) :: tree.write more).length ≤
      depth + 1) :
    Accepts setting base
      (do
        let _ ← advance
        return form (← optionalExpr (grammar depth)))
      (.of (.keyword word) :: tree.write more) more
      fun program kind => ∃ value, kind = form value ∧ tree.At program value := by
  refine Passes.andThen
    (passes_advance (ne_eof rfl) (Setting.settles hcount _)) ?_
  rintro _ _
  apply (accepts_optionalExpr htree hcount hafter
    (Nat.le_of_succ_le_succ hlength)).bind
  intro program value _ hat
  exact accepts_pure fun _ hgrows => ⟨value, rfl, hat.grows hgrows⟩

theorem readsStmt_return {tree : Tree .optional} (htree : tree.ReadsOptional) :
    (Tree.return tree : Tree (.stmt inLoop)).ReadsStmt := by
  intro depth setting base more hcount _ hafter hlength
  apply passes_cursor.andThen
  rintro cursor ⟨hkind, _⟩
  rw [hkind]
  apply passes_kind.andThen
  rintro _ rfl
  exact accepts_optionalForm .return htree hcount hafter hlength

theorem readsStmt_raise {tree : Tree .optional} (htree : tree.ReadsOptional) :
    (Tree.raise tree : Tree (.stmt inLoop)).ReadsStmt := by
  intro depth setting base more hcount _ hafter hlength
  apply passes_cursor.andThen
  rintro cursor ⟨hkind, _⟩
  rw [hkind]
  apply passes_kind.andThen
  rintro _ rfl
  exact accepts_optionalForm .raise htree hcount hafter hlength

/-- A loop can be left inside of one. -/
theorem accepts_loopExit {kind : TokenKind} {form : StmtKind}
    {tree : Tree (.stmt true)} (hkind : kind ≠ .eof)
    (hat : ∀ program, tree.At program form)
    (hcount : setting.newlinesCount = true) (hallows : setting.Allows true) :
    Accepts setting base (loopExit form) (.of kind :: more) more
      fun program form => tree.At program form := by
  apply passes_loopDepth.andThen
  rintro _ rfl
  rw [if_neg (hallows rfl)]
  refine Passes.andThen (passes_advance hkind (Setting.settles hcount _)) ?_
  rintro _ _
  exact accepts_pure fun program _ => hat program

theorem readsStmt_break : Tree.break.ReadsStmt := by
  intro depth setting base more hcount hallows _ _
  apply passes_cursor.andThen
  rintro cursor ⟨hkind, _⟩
  rw [hkind]
  apply passes_kind.andThen
  rintro _ rfl
  exact accepts_loopExit (ne_eof rfl) (fun _ => rfl) hcount hallows

theorem readsStmt_continue : Tree.continue.ReadsStmt := by
  intro depth setting base more hcount hallows _ _
  apply passes_cursor.andThen
  rintro cursor ⟨hkind, _⟩
  rw [hkind]
  apply passes_kind.andThen
  rintro _ rfl
  exact accepts_loopExit (ne_eof rfl) (fun _ => rfl) hcount hallows

/-- An expression as a statement without a block. -/
theorem accepts_smallExpr {value : Tree .expr} (hvalue : value.ReadsValue)
    (hcount : setting.newlinesCount = true) (hafter : AfterStmt more)
    (hlength : (value.write more).length ≤ depth + 1) :
    Accepts setting base (smallStatement (grammar depth)) (value.write more)
      more fun program form =>
        (Tree.expr value : Tree (.stmt inLoop)).At program form := by
  have hleads := value.leads more
  apply passes_kind.andThen
  rintro _ rfl
  split
  · next hkind => exact absurd hkind (hleads.ne rfl)
  · next hkind => exact absurd hkind (hleads.ne rfl)
  · next hkind => exact absurd hkind (hleads.ne rfl)
  · next hkind => exact absurd hkind (hleads.ne rfl)
  · apply (hvalue depth setting base more hlength hafter.joint?
      (Setting.settles hcount more)).bind
    intro program id _ hid
    exact accepts_pure fun _ hgrows => ⟨id, rfl, hid.grows hgrows⟩

/-- A function in front of an expression is not a function statement. -/
theorem startsFuncBlock_eq_false {value : Tree .expr} {cursor : Cursor}
    (hfunc : firstKind (value.write more) = .keyword .funcKw)
    (hpeek : cursor.peek 1 =
      Cursor.peekIn setting.newlinesCount 1 (value.write more)) :
    startsFuncBlock cursor = false := by
  have hopening := value.opening more
  rw [startsFuncBlock, hpeek]
  generalize value.write more = tokens at hopening hfunc
  cases hopening with
  | other _ hother => exact absurd hfunc hother
  | func tokens =>
      have hsecond : Cursor.peekIn setting.newlinesCount 1
          (.of (.keyword .funcKw) :: .of (.mark .openParen) :: tokens) =
            .mark .openParen :=
        Cursor.peekIn_one (ne_newline rfl) (ne_eof rfl)
          fun _ => ne_newline rfl
      rw [hsecond]
  | alone kind hother => exact absurd hfunc hother
  | joined kind hother => exact absurd hfunc hother

/-- A name in front of an expression is not the one of a block. -/
theorem startsAssignBlock_eq_false {value : Tree .expr} {cursor : Cursor}
    {name : String} (hcount : setting.newlinesCount = true)
    (hafter : AfterStmt more)
    (hname : firstKind (value.write more) = .ident name)
    (hpeek : ∀ n, cursor.peek n =
      Cursor.peekIn setting.newlinesCount n (value.write more)) :
    startsAssignBlock cursor = false := by
  have hopening := value.opening more
  rw [startsAssignBlock, hpeek, hpeek, hcount]
  have hsecond : ∀ tokens,
      Cursor.peekIn true 1 (.of (.ident name) :: tokens) = firstKind tokens :=
    fun tokens => Cursor.peekIn_one (ne_newline rfl) (ne_eof rfl)
      fun hcount => absurd hcount.symm Bool.false_ne_true
  generalize value.write more = tokens at hopening hname
  cases hopening with
  | other hkey => exact nomatch (hname ▸ hkey : keyOf? (.ident name) = none)
  | func tokens => cases hname
  | alone kind =>
      obtain rfl : kind = .ident name := hname
      have hassign : firstKind more ≠ .mark .assign := by
        intro hassign
        have hjoint := hafter.joint?
        rw [hassign] at hjoint
        cases hjoint
      simp [hsecond, hassign]
  | @joined kind joint tokens _ _ hassign =>
      obtain rfl : kind = .ident name := hname
      by_cases hjoint : joint = .mark .assign
      · subst hjoint
        have hthird : Cursor.peekIn true 2
            (.of (.ident name) :: .of (.mark .assign) :: tokens) ≠
              .mark .openBrace := by
          simpa [Cursor.peekIn] using hassign rfl
        simp [hthird]
      · simp [hsecond, hjoint]

theorem readsStmt_expr {value : Tree .expr} (hvalue : value.ReadsValue) :
    (Tree.expr value : Tree (.stmt inLoop)).ReadsStmt := by
  intro depth setting base more hcount _ hafter hlength
  have hleads := value.leads more
  have hsmall : Accepts setting base (smallStatement (grammar depth))
      (value.write more) more fun program form =>
        (Tree.expr value : Tree (.stmt inLoop)).At program form :=
    accepts_smallExpr hvalue hcount hafter hlength
  apply passes_cursor.andThen
  rintro cursor ⟨hkind, hpeek⟩
  split
  · next hword => exact absurd (hkind.symm.trans hword) (hleads.ne rfl)
  · next hword => exact absurd (hkind.symm.trans hword) (hleads.ne rfl)
  · next hword => exact absurd (hkind.symm.trans hword) (hleads.ne rfl)
  · next hword => exact absurd (hkind.symm.trans hword) (hleads.ne rfl)
  · next hword => exact absurd (hkind.symm.trans hword) (hleads.ne rfl)
  · next hword => exact absurd (hkind.symm.trans hword) (hleads.ne rfl)
  · next hword =>
      simp only [startsFuncBlock_eq_false (hkind.symm.trans hword) (hpeek 1),
        Bool.false_eq_true, if_false]
      exact hsmall
  · next name hword =>
      simp only [startsAssignBlock_eq_false hcount hafter
        (hkind.symm.trans hword) hpeek, Bool.false_eq_true, if_false]
      exact hsmall
  · exact hsmall

end Forms

end ChainScript
