import ChainScript.Proofs.Progress

/-
Parsers that pay for the rows they add.

A parser that consumes a token can add a row to any one table for it.  Rows of
lists are added after all parts of the list are parsed, so the parser of a part
leaves one token unspent, which is the part's credit, and the parser of the list
spends the credits of all parts.

A thrifty parser is a steady one that pays.  What it consumes is needed twice:
for the depth that is allowed, any token counts, and for the rows, those that
are not spent yet.
-/

namespace ChainScript

open Step

/-- The number of rows of a table. -/
def Program.rows (program : Program) : Table → Nat
  | .exprs => program.exprs.size
  | .stmts => program.stmts.size
  | .stmtLists => program.stmtLists.size
  | .entries => program.entries.size
  | .params => program.params.size
  | .names => program.names.size
  | .funcs => program.funcs.size

/-- What rows added to one table cost, counted in rows of another one. -/
def Table.price (table added : Table) (count : Nat) : Nat :=
  if table = added then count else 0

/-- What is left of a token after the row of an expression is added. -/
def Table.spare (table : Table) : Nat :=
  if table = .exprs then 0 else 1

namespace Table

variable (table : Table)

theorem price_expr_add_spare : table.price .exprs 1 + table.spare = 1 := by
  cases table <;> rfl

theorem spare_le : table.spare ≤ 1 := by
  cases table <;> decide

theorem price_succ_le (added : Table) (count : Nat) :
    table.price added (count + 1) ≤ table.price added count + 1 := by
  unfold price
  split <;> omega

theorem price_entries_succ_le (count : Nat) :
    table.price .entries (count + 1) ≤
      table.price .entries count + table.spare := by
  cases table <;> simp [price, spare]

/-- One token is enough for a statement and its place in a list. -/
theorem price_stmt_le :
    table.price .stmts 1 + table.price .stmtLists 1 ≤ table.spare := by
  cases table <;> decide

theorem price_stmtLists_succ (count : Nat) :
    table.price .stmtLists (count + 1) =
      table.price .stmtLists count + table.price .stmtLists 1 := by
  cases table <;> simp [price]

end Table

namespace Parse

variable {α β : Type} {table : Table} {depth count funds : Nat}
  {state : ParserState} {credit : α → Nat} {last : β → Nat}

/-- What a parser leaves unspent.  An error leaves nothing to anyone. -/
def unspent (credit : α → Nat) : Outcome ParseError α → Nat
  | .ok value => credit value
  | _ => 0

/-- From a state on, the consumed tokens and the funds pay for the rows that
the parser adds to the table and for the credit of its answer. -/
def PaysAt (table : Table) (funds : Nat) (parser : Parse α)
    (credit : α → Nat) (state : ParserState) : Prop :=
  (parser state).2.program.rows table +
      (parser state).2.cursor.rest.length +
      unspent credit (parser state).1 ≤
    state.program.rows table + state.cursor.rest.length + funds

/-- From a state on, the parser is steady and pays. -/
structure ThriftyAt (table : Table) (depth count funds : Nat)
    (parser : Parse α) (credit : α → Nat) (state : ParserState) : Prop where
  steady : SteadyAt depth count parser state
  pays : PaysAt table funds parser credit state

/-- The parser is thrifty wherever it starts. -/
def Thrifty (table : Table) (depth count funds : Nat) (parser : Parse α)
    (credit : α → Nat) : Prop :=
  ∀ state, ThriftyAt table depth count funds parser credit state

section Weakening

/-- Less depth may be allowed, and less may be consumed. -/
theorem ThriftyAt.weaken {parser : Parse α} {less fewer : Nat}
    (hparser : ThriftyAt table depth count funds parser credit state)
    (hdepth : less ≤ depth) (hcount : fewer ≤ count) :
    ThriftyAt table less fewer funds parser credit state :=
  { hparser with steady := hparser.steady.mono hdepth hcount }

theorem Thrifty.weaken {parser : Parse α} {less fewer : Nat}
    (hparser : Thrifty table depth count funds parser credit)
    (hdepth : less ≤ depth) (hcount : fewer ≤ count) :
    Thrifty table less fewer funds parser credit :=
  fun state => (hparser state).weaken hdepth hcount

/-- A token that is consumed need not be counted. -/
theorem Thrifty.uncounted {parser : Parse α}
    (hparser : Thrifty table depth count funds parser credit) :
    Thrifty table depth 0 funds parser credit :=
  hparser.weaken (Nat.le_refl depth) (Nat.zero_le count)

theorem unspent_add_le {cost : Nat} {more : α → Nat} (hfunds : cost ≤ funds)
    (hcredit : ∀ value, credit value + cost ≤ more value + funds)
    (outcome : Outcome ParseError α) :
    unspent credit outcome + cost ≤ unspent more outcome + funds := by
  cases outcome with
  | ok value => exact hcredit value
  | error error => simpa [unspent] using hfunds
  | halted reason => simpa [unspent] using hfunds

theorem PaysAt.mono {parser : Parse α} {cost : Nat} {more : α → Nat}
    (hpays : PaysAt table cost parser more state) (hfunds : cost ≤ funds)
    (hcredit : ∀ value, credit value + cost ≤ more value + funds) :
    PaysAt table funds parser credit state := by
  have hle := unspent_add_le hfunds hcredit (parser state).1
  unfold PaysAt at hpays ⊢
  omega

/-- Funds that a parser does not need can be added to its credit. -/
theorem ThriftyAt.mono {parser : Parse α} {cost : Nat} {more : α → Nat}
    (hparser : ThriftyAt table depth count cost parser more state)
    (hfunds : cost ≤ funds)
    (hcredit : ∀ value, credit value + cost ≤ more value + funds) :
    ThriftyAt table depth count funds parser credit state :=
  { hparser with pays := hparser.pays.mono hfunds hcredit }

theorem Thrifty.mono {parser : Parse α} {cost : Nat} {more : α → Nat}
    (hparser : Thrifty table depth count cost parser more)
    (hfunds : cost ≤ funds)
    (hcredit : ∀ value, credit value + cost ≤ more value + funds) :
    Thrifty table depth count funds parser credit :=
  fun state => (hparser state).mono hfunds hcredit

theorem Thrifty.steady {parser : Parse α}
    (hparser : Thrifty table depth count funds parser credit) :
    Steady depth count parser :=
  fun state => (hparser state).steady

end Weakening

section Primitives

/-- A parser that leaves the tables alone has what it consumes to spend. -/
theorem SteadyAt.thrifty {parser : Parse α}
    (hsteady : SteadyAt depth count parser state)
    (hstill : (parser state).2.program = state.program) :
    ThriftyAt table depth count 0 parser (fun _ => count) state := by
  refine ⟨hsteady, ?_⟩
  have hshrinks := hsteady.shrinks
  have hconsumes := hsteady.consumes
  unfold PaysAt
  rw [hstill]
  cases hend : (parser state).1 with
  | ok value =>
      have hused := hconsumes value hend
      simp only [unspent]
      omega
  | error error =>
      simp only [unspent]
      omega
  | halted reason =>
      simp only [unspent]
      omega

theorem thrifty_pure {value : α} (hcredit : credit value ≤ funds) :
    Thrifty table depth 0 funds (pure value) credit :=
  fun state => ⟨steady_pure value state, Nat.add_le_add_left hcredit _⟩

/-- An answer that is already there leaves the funds. -/
theorem thrifty_keep {value : α} :
    Thrifty table depth 0 funds (pure value) fun _ => funds :=
  thrifty_pure (Nat.le_refl funds)

theorem thrifty_fault (cause : TokenKind → ParseFault) :
    Thrifty table depth count funds (fault cause) credit :=
  fun state => ⟨steady_fault cause state, Nat.le_add_right _ _⟩

theorem thrifty_fail (error : ParseError) :
    Thrifty table depth count funds (Step.fail error) credit :=
  fun state => ⟨steady_fail error state, Nat.le_add_right _ _⟩

theorem thrifty_halt (reason : Halt) (hdepth : depth = 0) :
    Thrifty table depth count funds (Step.halt reason) credit :=
  fun state => ⟨steady_halt reason hdepth state, Nat.le_add_right _ _⟩

theorem thrifty_read (f : ParserState → α) :
    Thrifty table depth 0 0 (Step.read f : Parse α) fun _ => 0 :=
  fun state => (steady_read f state).thrifty rfl

theorem thrifty_look (f : Cursor → α) :
    Thrifty table depth 0 0 (look f) fun _ => 0 :=
  thrifty_read _

theorem thrifty_skipNewlines :
    Thrifty table depth 0 0 skipNewlines fun _ => 0 :=
  fun state => (steady_skipNewlines state).thrifty rfl

theorem thrifty_advance : Thrifty table depth 0 0 advance fun _ => 0 :=
  fun state => (steady_advance state).thrifty rfl

/-- A token that is consumed is one more token to spend. -/
theorem thriftyAt_advance (hyields : state.cursor.kind.Yields count) :
    ThriftyAt table depth count 0 advance (fun _ => count) state :=
  (steadyAt_advance hyields).thrifty rfl

theorem thrifty_eat (kind : TokenKind) :
    Thrifty table depth 0 0 (eat kind) fun _ => 0 :=
  fun state => (steady_eat kind state).thrifty rfl

theorem program_ofCursor (f : Cursor → Except ParseError α × Cursor)
    (state : ParserState) :
    (ofCursor f state).2.program = state.program := by
  unfold ofCursor
  rcases f state.cursor with ⟨error | value, cursor⟩ <;> rfl

theorem thrifty_expect {kind : TokenKind} (hyields : kind.Yields count) :
    Thrifty table depth count 0 (expect kind) fun _ => count :=
  fun state => (steady_expect hyields state).thrifty (program_ofCursor _ state)

theorem thrifty_expectIdent :
    Thrifty table depth 1 0 expectIdent fun _ => 1 :=
  fun state => (steady_expectIdent state).thrifty (program_ofCursor _ state)

theorem thrifty_expr (id : ExprId) :
    Thrifty table depth 0 0 (expr id) fun _ => 0 :=
  fun state => (steady_expr id state).thrifty rfl

/-- Adding rows costs as many tokens. -/
theorem thrifty_add {f : Program → α × Program} {added : Table} {rows : Nat}
    (hrows : ∀ program : Program,
      (f program).2.rows table = program.rows table + table.price added rows) :
    Thrifty table depth 0 (table.price added rows) (add f) fun _ => 0 := by
  refine fun state => ⟨steady_add f state, ?_⟩
  have hsize := hrows state.program
  simp only [PaysAt, add, update_apply, unspent]
  omega

theorem thrifty_addStmt (kind : StmtKind) (span : Span) :
    Thrifty table depth 0 (table.price .stmts 1) (addStmt kind span)
      fun _ => 0 := by
  apply thrifty_add
  intro program
  cases table <;> simp [Program.rows, Program.addStmt, Table.price]

theorem thrifty_addStmtList (stmts : List StmtId) :
    Thrifty table depth 0 (table.price .stmtLists stmts.length)
      (addStmtList stmts) fun _ => 0 := by
  apply thrifty_add
  intro program
  cases table <;> simp [Program.rows, Program.addStmtList, Table.price]

theorem thrifty_addEntries (entries : List Entry) :
    Thrifty table depth 0 (table.price .entries entries.length)
      (addEntries entries) fun _ => 0 := by
  apply thrifty_add
  intro program
  cases table <;> simp [Program.rows, Program.addEntries, Table.price]

theorem thrifty_addParams (params : List Param) :
    Thrifty table depth 0 (table.price .params params.length)
      (add fun program => program.addParams params) fun _ => 0 := by
  apply thrifty_add
  intro program
  cases table <;> simp [Program.rows, Program.addParams, Table.price]

theorem thrifty_addNames (names : List String) :
    Thrifty table depth 0 (table.price .names names.length)
      (add fun program => program.addNames names) fun _ => 0 := by
  apply thrifty_add
  intro program
  cases table <;> simp [Program.rows, Program.addNames, Table.price]

theorem thrifty_addFunc (func : FuncDef) :
    Thrifty table depth 0 (table.price .funcs 1)
      (add fun program => program.addFunc func) fun _ => 0 := by
  apply thrifty_add
  intro program
  cases table <;> simp [Program.rows, Program.addFunc, Table.price]

/-- The row of an expression that a token was consumed for. -/
theorem thrifty_addExpr (kind : ExprKind) (span : Span) (hfunds : 1 ≤ funds) :
    Thrifty table depth 0 funds (addExpr kind span) fun _ => table.spare := by
  have hprice := table.price_expr_add_spare
  have hadd : Thrifty table depth 0 (table.price .exprs 1) (addExpr kind span)
      fun _ => 0 := by
    apply thrifty_add
    intro program
    cases table <;> simp [Program.rows, Program.addExpr, Table.price]
  exact hadd.mono (by omega) fun _ => by omega

end Primitives

section Combinators

/-- The second parser has what the first one leaves. -/
theorem PaysAt.bind {first : Parse α} {next : α → Parse β} {cost : Nat}
    (hfirst : PaysAt table cost first credit state) (hcost : cost ≤ funds)
    (hnext : ∀ value after, first state = (.ok value, after) →
      PaysAt table (funds - cost + credit value) (next value) last after) :
    PaysAt table funds (first >>= next) last state := by
  unfold PaysAt at hfirst ⊢
  rw [bind_apply]
  rcases hend : first state with ⟨outcome, middle⟩
  rw [hend] at hfirst
  cases outcome with
  | ok value =>
      have hrest := hnext value middle hend
      simp only [PaysAt, unspent] at hfirst hrest ⊢
      omega
  | error error =>
      simp only [unspent] at hfirst ⊢
      omega
  | halted reason =>
      simp only [unspent] at hfirst ⊢
      omega

/-- The second parser has the funds that the first one does not need and the
credit of its answer, and less depth by what the first one has consumed. -/
theorem ThriftyAt.bind {first : Parse α} {next : α → Parse β} {n : Nat}
    (hfirst : ThriftyAt table depth n 0 first credit state)
    (hnext : ∀ value after, first state = (.ok value, after) →
      ThriftyAt table (depth - n) (count - n) (funds + credit value)
        (next value) last after) :
    ThriftyAt table depth count funds (first >>= next) last state where
  steady := hfirst.steady.bind fun value after hrun _ =>
    (hnext value after hrun).steady
  pays := hfirst.pays.bind (Nat.zero_le funds) fun value after hrun =>
    (hnext value after hrun).pays

theorem ThriftyAt.andThen {first : Parse α} {next : α → Parse β} {n : Nat}
    (hfirst : ThriftyAt table depth n 0 first credit state)
    (hnext : ∀ value, Thrifty table (depth - n) (count - n)
      (funds + credit value) (next value) last) :
    ThriftyAt table depth count funds (first >>= next) last state :=
  hfirst.bind fun value after _ => hnext value after

/-- The first parser has consumed all that is counted. -/
theorem ThriftyAt.followedBy {first : Parse α} {next : α → Parse β}
    (hfirst : ThriftyAt table (depth + count) count 0 first credit state)
    (hnext : ∀ value,
      Thrifty table depth 0 (funds + credit value) (next value) last) :
    ThriftyAt table (depth + count) count funds (first >>= next) last state :=
  hfirst.andThen fun value => (hnext value).weaken (by omega) (by omega)

theorem Thrifty.bind {first : Parse α} {next : α → Parse β} {n : Nat}
    (hfirst : Thrifty table depth n 0 first credit)
    (hnext : ∀ value, Thrifty table (depth - n) (count - n)
      (funds + credit value) (next value) last) :
    Thrifty table depth count funds (first >>= next) last :=
  fun state => (hfirst state).andThen hnext

/-- Rows are added out of the funds. -/
theorem Thrifty.spend {first : Parse α} {next : α → Parse β} {cost : Nat}
    (hfirst : Thrifty table depth 0 cost first credit) (hcost : cost ≤ funds)
    (hnext : ∀ value, Thrifty table depth count
      (funds - cost + credit value) (next value) last) :
    Thrifty table depth count funds (first >>= next) last :=
  fun state =>
    { steady := (hfirst state).steady.bind fun value after _ _ =>
        (hnext value after).steady
      pays := (hfirst state).pays.bind hcost fun value after _ =>
        (hnext value after).pays }

/-- What is read off the cursor is known from then on. -/
theorem thriftyAt_look_bind {f : Cursor → α} {next : α → Parse β}
    (hnext : ThriftyAt table depth count funds (next (f state.cursor)) last
      state) :
    ThriftyAt table depth count funds (look f >>= next) last state :=
  ⟨steadyAt_look_bind hnext.steady, hnext.pays⟩

/-- Reading a row leaves the place alone. -/
theorem thriftyAt_expr_bind {id : ExprId} {next : Expr → Parse β}
    (hnext : ∀ row, ThriftyAt table depth count funds (next row) last state) :
    ThriftyAt table depth count funds (expr id >>= next) last state := by
  refine (thrifty_expr id state).bind fun row after hrun => ?_
  obtain rfl : state = after := congrArg Prod.snd hrun
  exact hnext row

/-- A loop that is allowed one round more than there are tokens never runs out
of rounds, if it consumes a token in each. -/
theorem thrifty_rounds_bind {loop : Nat → Parse α}
    (hloop : ∀ rounds,
      Thrifty table (min depth rounds) count funds (loop rounds) credit) :
    Thrifty table depth count funds (rounds >>= loop) credit :=
  fun state =>
    ⟨steady_rounds_bind (fun rounds => (hloop rounds).steady) state,
      (hloop _ state).pays⟩

/-- A token that is eaten is consumed, if it is not the end of the file. -/
theorem thriftyAt_eat_bind {kind : TokenKind} {next : Bool → Parse β}
    (hvisible : kind.isVisible = true)
    (htrue : Thrifty table (depth - 1) (count - 1) funds (next true) last)
    (hfalse : ThriftyAt table depth count funds (next false) last state) :
    ThriftyAt table depth count funds (eat kind >>= next) last state := by
  refine ⟨steadyAt_eat_bind hvisible (fun after => (htrue after).steady)
    hfalse.steady, ?_⟩
  have heat : eat kind state =
      (.ok (state.cursor.eat kind).1,
        { state with cursor := (state.cursor.eat kind).2 }) := rfl
  refine (@thrifty_eat table 0 kind state).pays.bind (Nat.zero_le funds)
    fun value after hrun => ?_
  rw [heat] at hrun
  by_cases hcheck : state.cursor.check kind = true
  · simp only [Cursor.eat, hcheck, if_true, Prod.mk.injEq, Outcome.ok.injEq]
      at hrun
    rw [← hrun.1]
    exact (htrue after).pays
  · simp only [Cursor.eat, hcheck, Prod.mk.injEq, Outcome.ok.injEq] at hrun
    rw [← hrun.1, ← hrun.2]
    exact hfalse.pays

theorem ThriftyAt.within (context : ParseContext) {parser : Parse α}
    (hparser : ThriftyAt table depth count funds parser credit state) :
    ThriftyAt table depth count funds (within context parser) credit
      state := by
  refine ⟨hparser.steady.within context, ?_⟩
  have hpays := hparser.pays
  unfold PaysAt at hpays ⊢
  unfold Parse.within mapError
  rcases hend : parser state with ⟨outcome, after⟩
  rw [hend] at hpays
  cases outcome <;> exact hpays

theorem Thrifty.within (context : ParseContext) {parser : Parse α}
    (hparser : Thrifty table depth count funds parser credit) :
    Thrifty table depth count funds (within context parser) credit :=
  fun state => (hparser state).within context

theorem Thrifty.inRegion {newlinesCount : Bool} {parser : Parse α}
    (hparser : Thrifty table depth count funds parser credit) :
    Thrifty table depth count funds (inRegion newlinesCount parser)
      credit := by
  intro state
  have hinner := hparser
    { state with cursor := state.cursor.push newlinesCount }
  refine ⟨hinner.steady.inRegion, ?_⟩
  have hpays := hinner.pays
  have hle := state.cursor.length_push_le newlinesCount
  unfold PaysAt at hpays ⊢
  exact Nat.le_trans hpays (by simpa using hle)

/-- The token that a region is entered over is consumed, and not spent. -/
theorem ThriftyAt.enter {newlinesCount : Bool} {next : Token → Parse α}
    (hyields : state.cursor.kind.Yields count)
    (hnext : ∀ token, Thrifty table depth 0 0 (next token) credit) :
    ThriftyAt table (depth + count) count 0
      (Parse.inRegion newlinesCount (advance >>= next)) credit state where
  steady := .enter hyields fun token after => (hnext token after).steady
  pays :=
    have hinner : Thrifty table depth 0 0 (advance >>= next) credit :=
      thrifty_advance.bind hnext
    (hinner.inRegion state).pays

theorem Thrifty.inLoop {parser : Parse α}
    (hparser : Thrifty table depth count funds parser credit) :
    Thrifty table depth count funds (inLoop parser) credit :=
  fun state =>
    ⟨hparser.steady.inLoop state,
      (hparser { state with loopDepth := state.loopDepth + 1 }).pays⟩

theorem Thrifty.inFunction {parser : Parse α}
    (hparser : Thrifty table depth count funds parser credit) :
    Thrifty table depth count funds (inFunction parser) credit :=
  fun state =>
    ⟨hparser.steady.inFunction state,
      (hparser { state with loopDepth := 0 }).pays⟩

theorem thrifty_spanOf (id : ExprId) :
    Thrifty table depth 0 0 (spanOf id) fun _ => 0 :=
  (thrifty_expr id).bind fun _ => thrifty_pure (Nat.le_refl 0)

end Combinators

end Parse

end ChainScript
