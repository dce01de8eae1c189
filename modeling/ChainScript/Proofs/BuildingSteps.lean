import ChainScript.Proofs.PlacesInText
import ChainScript.Proofs.SyntaxTrees

/-
Parsers that build programs.

However a parser ends, it has made moves with its cursor and has added rows to
its tables.  A program that was built stays so, and places that are known stay
in their zone.  No row that the parser looks up is missing, and what it answers
with is good in the tables that it leaves.  What was good in the tables before
is good in them afterwards, since tables only grow.

The number of loops around a parser is the same before and after it, and decides
which statements it accepts.
-/

namespace ChainScript

open Step

/-- There is a loop around the place in the same function. -/
def ParserState.inLoop (state : ParserState) : Bool :=
  state.loopDepth != 0

/-- How a parser that starts in the first state may leave the second one. -/
structure ParserState.LeadsTo (zone : Zone) (before after : ParserState) :
    Prop where
  moved : ∃ moves, after.cursor = before.cursor.run moves
  loopDepth : after.loopDepth = before.loopDepth
  grows : before.program.Grows after.program
  built : before.program.Built → after.program.Built
  inside : before.Inside zone → after.Inside zone

namespace ParserState.LeadsTo

variable {zone : Zone} {before middle after : ParserState}

theorem refl (state : ParserState) : state.LeadsTo zone state :=
  ⟨⟨[], rfl⟩, rfl, .refl _, id, id⟩

/-- One run after another. -/
theorem trans (hfirst : before.LeadsTo zone middle)
    (hsecond : middle.LeadsTo zone after) : before.LeadsTo zone after where
  moved := by
    obtain ⟨earlier, hearlier⟩ := hfirst.moved
    obtain ⟨later, hlater⟩ := hsecond.moved
    exact ⟨earlier ++ later, by rw [hlater, hearlier, Cursor.run_append]⟩
  loopDepth := hsecond.loopDepth.trans hfirst.loopDepth
  grows := hfirst.grows.trans hsecond.grows
  built := hsecond.built ∘ hfirst.built
  inside := hsecond.inside ∘ hfirst.inside

/-- A move of the cursor leaves the tables alone. -/
theorem move (state : ParserState) (move : Cursor.Move) :
    state.LeadsTo zone { state with cursor := move.apply state.cursor } where
  moved := ⟨[move], rfl⟩
  loopDepth := rfl
  grows := .refl _
  built := id
  inside := fun hstate =>
    { hstate with
      tokens := by
        have htokens := state.cursor.tokens_run [move]
        change (move.apply state.cursor).tokens = _ at htokens
        rw [htokens]
        exact hstate.tokens }

theorem add (state : ParserState) {program : Program}
    (hgrows : state.program.Grows program)
    (hbuilt : state.program.Built → program.Built)
    (hplaces : ∀ span, program.Places span →
      state.program.Places span ∨ zone.Has span) :
    state.LeadsTo zone { state with program } where
  moved := ⟨[], rfl⟩
  loopDepth := rfl
  grows := hgrows
  built := hbuilt
  inside := fun hstate =>
    { hstate with
      rows := fun span hspan =>
        (hplaces span hspan).elim (hstate.rows span) id }

/-- The number of loops may change meanwhile. -/
theorem atDepth {inner outer : Nat}
    (hleads : LeadsTo zone { before with loopDepth := inner } after)
    (houter : outer = before.loopDepth) :
    before.LeadsTo zone { after with loopDepth := outer } where
  moved := hleads.moved
  loopDepth := houter
  grows := hleads.grows
  built := hleads.built
  inside := fun hstate =>
    { hleads.inside { hstate with } with }

theorem inLoop_eq (hleads : before.LeadsTo zone after) :
    after.inLoop = before.inLoop := by
  rw [inLoop, inLoop, hleads.loopDepth]

end ParserState.LeadsTo

/-- The ways in which a parser may end: with a good answer, with an error about
places in the zone, or for want of depth. -/
def Outcome.Ends {α : Type} (zone : Zone) (Good : α → Prop) :
    Outcome ParseError α → Prop
  | .ok value => Good value
  | .error failure => failure.Inside zone
  | .halted reason => reason = .exhausted

theorem Outcome.Ends.mono {α : Type} {zone : Zone} {Good Better : α → Prop}
    {outcome : Outcome ParseError α} (hends : outcome.Ends zone Good)
    (himp : ∀ value, outcome = .ok value → Good value → Better value) :
    outcome.Ends zone Better := by
  cases outcome with
  | ok value => exact himp value rfl hends
  | error failure => exact hends
  | halted reason => exact hends

namespace Parse

variable {α β : Type}

/-- Where the tables have grown from `base`, the parser keeps them built, and
its answer is good in the tables that it leaves.  `loops` tells whether there
is a loop around the parser. -/
def Builds (zone : Zone) (loops : Bool) (base : Program) (parser : Parse α)
    (Good : Program → α → Prop) : Prop :=
  ∀ state : ParserState, state.inLoop = loops → base.Grows state.program →
    state.Inside zone →
    state.LeadsTo zone (parser state).2 ∧
      (parser state).1.Ends zone (Good (parser state).2.program)

/-- The parser leaves the tables alone.  It may look up rows of `base`. -/
def Quiet (zone : Zone) (base : Program) (parser : Parse α)
    (Good : α → Prop) : Prop :=
  ∀ state : ParserState, base.Grows state.program → state.Inside zone →
    state.LeadsTo zone (parser state).2 ∧
      (parser state).2.program = state.program ∧
      (parser state).1.Ends zone Good

variable {zone : Zone} {loops : Bool} {base : Program}

section Quiet

variable {Good : α → Prop} {Then : β → Prop}

/-- A parser that leaves the state alone. -/
theorem quiet_of_still {parser : Parse α}
    (hstill : ∀ state, (parser state).2 = state)
    (hends : ∀ state : ParserState, base.Grows state.program →
      state.Inside zone → (parser state).1.Ends zone Good) :
    Quiet zone base parser Good := by
  intro state hgrows hinside
  rw [hstill]
  exact ⟨.refl state, rfl, hends state hgrows hinside⟩

theorem quiet_pure {value : α} (hgood : Good value) :
    Quiet zone base (pure value) Good :=
  quiet_of_still (fun _ => rfl) fun _ _ _ => hgood

theorem quiet_look (f : Cursor → α) :
    Quiet zone base (look f) fun _ => True :=
  quiet_of_still (fun _ => rfl) fun _ _ _ => trivial

theorem quiet_lookToken :
    Quiet zone base (look Cursor.current) fun token => zone.Has token.span :=
  quiet_of_still (fun _ => rfl) fun _ _ hinside => hinside.current

/-- The place of the current token is one of the places. -/
theorem quiet_span : Quiet zone base span zone.Has :=
  quiet_of_still (fun _ => rfl) fun _ _ hinside => hinside.current

theorem quiet_previousSpan : Quiet zone base previousSpan zone.Has :=
  quiet_of_still (fun _ => rfl) fun _ _ hinside => hinside.previousSpan

/-- An error about the current token. -/
theorem quiet_fault {cause : TokenKind → ParseFault}
    (hrelated : ∀ kind, ∀ label ∈ (cause kind).related,
      zone.Has label.span) :
    Quiet zone base (fault cause) Good :=
  quiet_of_still (fun _ => rfl) fun _ _ hinside =>
    ParseError.inside_of_related hinside.current (hrelated _)

/-- A parser that has no depth left. -/
theorem quiet_exhausted :
    Quiet zone base (Step.halt .exhausted : Parse α) Good :=
  quiet_of_still (fun _ => rfl) fun _ _ _ => rfl

theorem quiet_skipNewlines : Quiet zone base skipNewlines fun _ => True :=
  fun state _ _ => ⟨.move state .skipNewlines, rfl, trivial⟩

theorem quiet_advance :
    Quiet zone base advance fun token => zone.Has token.span :=
  fun state _ hinside => ⟨.move state .advance, rfl, hinside.current⟩

theorem quiet_eat (kind : TokenKind) :
    Quiet zone base (eat kind) fun _ => True :=
  fun state _ _ => ⟨.move state (.eat kind), rfl, trivial⟩

/-- A step of the cursor that fails is about the token that it fails at. -/
theorem quiet_ofCursor {f : Cursor → Except ParseError α × Cursor}
    (move : Cursor.Move) (hmove : ∀ cursor, (f cursor).2 = move.apply cursor)
    (hgood : ∀ state : ParserState, state.Inside zone →
      ∀ value, (f state.cursor).1 = .ok value → Good value)
    (hfails : ∀ state : ParserState, state.Inside zone →
      ∀ error, (f state.cursor).1 = .error error → error.Inside zone) :
    Quiet zone base (ofCursor f) Good := by
  intro state _ hinside
  have hleads : state.LeadsTo zone { state with cursor := (f state.cursor).2 } :=
    hmove state.cursor ▸ .move state move
  have hvalue := hgood state hinside
  have herror := hfails state hinside
  unfold ofCursor
  rcases hrun : f state.cursor with ⟨error | value, cursor⟩
  · rw [hrun] at hleads herror
    exact ⟨hleads, rfl, herror error rfl⟩
  · rw [hrun] at hleads hvalue
    exact ⟨hleads, rfl, hvalue value rfl⟩

theorem quiet_expect (kind : TokenKind) :
    Quiet zone base (expect kind) fun token => zone.Has token.span := by
  refine quiet_ofCursor (.expect kind) (fun _ => rfl) ?_ ?_
  · intro state hinside token hend
    unfold Cursor.expect at hend
    split at hend <;> cases hend
    exact hinside.current
  · intro state hinside error hend
    unfold Cursor.expect at hend
    split at hend <;> cases hend
    exact ParseError.inside_of_related hinside.current nofun

theorem quiet_expectIdent :
    Quiet zone base expectIdent fun _ => True := by
  refine quiet_ofCursor .expectIdent (fun _ => rfl) (fun _ _ _ _ => trivial) ?_
  intro state hinside error hend
  unfold Cursor.expectIdent at hend
  split at hend <;> cases hend
  exact ParseError.inside_of_related hinside.current nofun

/-- The row of an expression that is there. -/
theorem quiet_expr {id : ExprId} {row : Expr} (hrow : base.expr? id = some row) :
    Quiet zone base (expr id) fun found => found = row ∧ zone.Has row.span := by
  intro state hgrows hinside
  have hstill := hgrows.expr? hrow
  have hread : expr id state = (.ok row, state) := by
    simp only [expr, bind_apply, read_apply, found, ofOutcome_apply, hstill,
      Outcome.ofOption]
  rw [hread]
  exact ⟨.refl state, rfl, rfl,
    hinside.rows _ (Program.places_of_expr? hstill)⟩

theorem Quiet.bind {first : Parse α} {next : α → Parse β}
    (hfirst : Quiet zone base first Good)
    (hnext : ∀ value, Good value → Quiet zone base (next value) Then) :
    Quiet zone base (first >>= next) Then := by
  intro state hgrows hinside
  obtain ⟨hleads, hsame, hends⟩ := hfirst state hgrows hinside
  rw [bind_apply]
  rcases hend : first state with ⟨outcome, middle⟩
  rw [hend] at hleads hsame hends
  cases outcome with
  | ok value =>
      obtain ⟨hmore, hstill, hlast⟩ := hnext value hends middle
        (hgrows.trans hleads.grows) (hleads.inside hinside)
      exact ⟨hleads.trans hmore, hstill.trans hsame, hlast⟩
  | error error => exact ⟨hleads, hsame, hends⟩
  | halted reason => exact ⟨hleads, hsame, hends⟩

/-- Looking up the place of a row that is there gives one of the places. -/
theorem quiet_spanOf {id : ExprId} (hid : base.HasExpr id) :
    Quiet zone base (spanOf id) zone.Has := by
  obtain ⟨row, hrow⟩ := hid
  exact (quiet_expr hrow).bind fun _ ⟨hfound, hspan⟩ =>
    quiet_pure (hfound ▸ hspan)

end Quiet

section Builds

variable {Good : Program → α → Prop} {Then : Program → β → Prop}

/-- The answer must be good in all tables that grow from the present ones. -/
theorem builds_pure {value : α}
    (hgood : ∀ program, base.Grows program → Good program value) :
    Builds zone loops base (pure value) Good :=
  fun state _ hgrows _ => ⟨.refl state, hgood state.program hgrows⟩

theorem builds_fault {cause : TokenKind → ParseFault}
    (hrelated : ∀ kind, ∀ label ∈ (cause kind).related,
      zone.Has label.span) :
    Builds zone loops base (fault cause) Good :=
  fun state _ _ hinside => ⟨.refl state,
    ParseError.inside_of_related hinside.current (hrelated _)⟩

theorem builds_faultAt {span : Span} {cause : ParseFault}
    (hspan : zone.Has span)
    (hrelated : ∀ label ∈ cause.related, zone.Has label.span) :
    Builds zone loops base (faultAt span cause) Good :=
  fun state _ _ _ =>
    ⟨.refl state, ParseError.inside_of_related hspan hrelated⟩

theorem builds_exhausted :
    Builds zone loops base (Step.halt .exhausted) Good :=
  fun state _ _ _ => ⟨.refl state, rfl⟩

/-- After the first parser, the second one starts from tables in which the
first answer is good. -/
theorem Builds.bind {first : Parse α} {next : α → Parse β}
    (hfirst : Builds zone loops base first Good)
    (hnext : ∀ program value, base.Grows program → Good program value →
      Builds zone loops program (next value) Then) :
    Builds zone loops base (first >>= next) Then := by
  intro state hloops hgrows hinside
  obtain ⟨hleads, hends⟩ := hfirst state hloops hgrows hinside
  rw [bind_apply]
  rcases hend : first state with ⟨outcome, middle⟩
  rw [hend] at hleads hends
  cases outcome with
  | ok value =>
      obtain ⟨hmore, hlast⟩ := hnext middle.program value
        (hgrows.trans hleads.grows) hends middle
        (hleads.inLoop_eq.trans hloops) (.refl _) (hleads.inside hinside)
      exact ⟨hleads.trans hmore, hlast⟩
  | error error => exact ⟨hleads, hends⟩
  | halted reason => exact ⟨hleads, hends⟩

/-- What comes after a quiet parser starts from the same tables. -/
theorem Quiet.andThen {Still : α → Prop} {first : Parse α}
    {next : α → Parse β} (hfirst : Quiet zone base first Still)
    (hnext : ∀ value, Still value →
      Builds zone loops base (next value) Then) :
    Builds zone loops base (first >>= next) Then := by
  intro state hloops hgrows hinside
  obtain ⟨hleads, hsame, hends⟩ := hfirst state hgrows hinside
  rw [bind_apply]
  rcases hend : first state with ⟨outcome, middle⟩
  rw [hend] at hleads hsame hends
  cases outcome with
  | ok value =>
      obtain ⟨hmore, hlast⟩ := hnext value hends middle
        (hleads.inLoop_eq.trans hloops) (hgrows.trans hleads.grows)
        (hleads.inside hinside)
      exact ⟨hleads.trans hmore, hlast⟩
  | error error => exact ⟨hleads, hends⟩
  | halted reason => exact ⟨hleads, hends⟩

/-- What holds of all answers of a parser is good about them too. -/
theorem Builds.also {parser : Parse α} {Also : α → Prop}
    (hparser : Builds zone loops base parser Good)
    (halso : ∀ state value, (parser state).1 = .ok value → Also value) :
    Builds zone loops base parser fun program value =>
      Good program value ∧ Also value := by
  intro state hloops hgrows hinside
  obtain ⟨hleads, hends⟩ := hparser state hloops hgrows hinside
  exact ⟨hleads, hends.mono fun value hend hgood =>
    ⟨hgood, halso state value hend⟩⟩

theorem Builds.mono {parser : Parse α} {Better : Program → α → Prop}
    (hparser : Builds zone loops base parser Good)
    (himp : ∀ program value, base.Grows program → Good program value →
      Better program value) : Builds zone loops base parser Better := by
  intro state hloops hgrows hinside
  obtain ⟨hleads, hends⟩ := hparser state hloops hgrows hinside
  exact ⟨hleads, hends.mono fun value _ =>
    himp _ value (hgrows.trans hleads.grows)⟩

theorem Builds.within (context : ParseContext) {parser : Parse α}
    (hparser : Builds zone loops base parser Good) :
    Builds zone loops base (within context parser) Good := by
  intro state hloops hgrows hinside
  obtain ⟨hleads, hends⟩ := hparser state hloops hgrows hinside
  unfold Parse.within mapError
  rcases hend : parser state with ⟨outcome, after⟩
  rw [hend] at hleads hends
  cases outcome with
  | ok value => exact ⟨hleads, hends⟩
  | error error => exact ⟨hleads, ParseError.Inside.within hends context⟩
  | halted reason => exact ⟨hleads, hends⟩

/-- The modes of a region say nothing about tables or places. -/
theorem Builds.inRegion (newlinesCount : Bool) {parser : Parse α}
    (hparser : Builds zone loops base parser Good) :
    Builds zone loops base (inRegion newlinesCount parser) Good := by
  intro state hloops hgrows hinside
  have henter : state.LeadsTo zone _ := .move state (.push newlinesCount)
  obtain ⟨hleads, hends⟩ := hparser
    { state with cursor := state.cursor.push newlinesCount } hloops hgrows
    (henter.inside hinside)
  exact ⟨henter.trans (hleads.trans (.move _ .pop)), hends⟩

/-- There is a loop around the body of a loop. -/
theorem Builds.inLoop {parser : Parse α}
    (hparser : Builds zone true base parser Good) :
    Builds zone loops base (inLoop parser) Good := by
  intro state _ hgrows hinside
  obtain ⟨hleads, hends⟩ := hparser
    { state with loopDepth := state.loopDepth + 1 } rfl hgrows
    ⟨hinside.tokens, hinside.rows⟩
  exact ⟨hleads.atDepth (by rw [hleads.loopDepth]; rfl), hends⟩

/-- Loops around a function do not reach into its body. -/
theorem Builds.inFunction {parser : Parse α}
    (hparser : Builds zone false base parser Good) :
    Builds zone loops base (inFunction parser) Good := by
  intro state _ hgrows hinside
  obtain ⟨hleads, hends⟩ := hparser { state with loopDepth := 0 } rfl hgrows
    ⟨hinside.tokens, hinside.rows⟩
  exact ⟨hleads.atDepth rfl, hends⟩

end Builds

section Rows

variable {Good : Program → α → Prop}

/-- Adding rows, when all they refer to is there and their places are in the
zone. -/
private theorem builds_add {f : Program → α × Program}
    (hgrows : ∀ program : Program, program.Grows (f program).2)
    (hbuilt : ∀ program, base.Grows program → program.Built →
      (f program).2.Built)
    (hplaces : ∀ (program : Program) span, (f program).2.Places span →
      program.Places span ∨ zone.Has span)
    (hgood : ∀ program, base.Grows program →
      Good (f program).2 (f program).1) :
    Builds zone loops base (add f) Good :=
  fun state _ hmore _ => ⟨.add state (hgrows _) (hbuilt _ hmore) (hplaces _),
    hgood _ hmore⟩

/-- A row for an expression whose parts read as trees. -/
theorem builds_addExpr {kind : ExprKind} {span : Span}
    (hspan : zone.Has span) (hkind : base.Shows .expr kind) :
    Builds zone loops base (addExpr kind span) Program.ShowsExpr := by
  obtain ⟨tree, hat⟩ := hkind
  apply builds_add (fun _ => Program.grows_addExpr _ _)
    (fun _ hgrows hbuilt => hbuilt.addExpr (hat.grows hgrows).refersInto)
    (fun _ _ hplace => (Program.places_addExpr hplace).imp_right
      fun hsame => hsame ▸ hspan)
  intro program hgrows
  exact ⟨tree, _, program.expr?_addExpr _,
    (hat.grows hgrows).grows (Program.grows_addExpr _ _)⟩

theorem builds_addStmt {kind : StmtKind} {span : Span}
    (hspan : zone.Has span) (hkind : base.Shows (.stmt loops) kind) :
    Builds zone loops base (addStmt kind span)
      (Program.ShowsStmt · loops) := by
  obtain ⟨tree, hat⟩ := hkind
  apply builds_add (fun _ => Program.grows_addStmt _ _)
    (fun _ hgrows hbuilt => hbuilt.addStmt (hat.grows hgrows).refersInto)
    (fun _ _ hplace => (Program.places_addStmt hplace).imp_right
      fun hsame => hsame ▸ hspan)
  intro program hgrows
  exact ⟨tree, _, program.stmt?_addStmt _,
    (hat.grows hgrows).grows (Program.grows_addStmt _ _)⟩

theorem builds_addEntries {entries : List Entry}
    (hspans : ∀ entry ∈ entries, zone.Has entry.span)
    (hentries : base.Shows .entries entries) :
    Builds zone loops base (addEntries entries) Program.ShowsEntries := by
  obtain ⟨tree, hat⟩ := hentries
  apply builds_add (fun _ => Program.grows_addEntries _ _)
    (fun _ hgrows hbuilt => hbuilt.addEntries (hat.grows hgrows).refersInto)
    (fun _ _ hplace => (Program.places_addEntries hplace).imp_right
      fun ⟨row, hrow, hsame⟩ => hsame ▸ hspans row hrow)
  intro program hgrows
  exact ⟨tree, entries, program.entries?_addEntries entries,
    (hat.grows hgrows).grows (Program.grows_addEntries _ _)⟩

/-- Adding rows of which no places are reported. -/
private theorem builds_addOther {f : Program → α × Program}
    (hsame : ∀ program, (f program).2.exprs = program.exprs ∧
      (f program).2.entries = program.entries ∧
      (f program).2.stmts = program.stmts)
    (hgrows : ∀ program : Program, program.Grows (f program).2)
    (hbuilt : ∀ program, base.Grows program → program.Built →
      (f program).2.Built)
    (hgood : ∀ program, base.Grows program →
      Good (f program).2 (f program).1) :
    Builds zone loops base (add f) Good := by
  refine builds_add hgrows hbuilt (fun program span hplace => .inl ?_) hgood
  obtain ⟨hexprs, hentries, hstmts⟩ := hsame program
  exact Program.places_of_same hexprs hentries hstmts hplace

theorem builds_addStmtList {stmts : List StmtId}
    (hstmts : base.Shows (.stmts loops) stmts) :
    Builds zone loops base (addStmtList stmts)
      (Program.ShowsStmts · loops) := by
  obtain ⟨tree, hat⟩ := hstmts
  apply builds_addOther (fun _ => ⟨rfl, rfl, rfl⟩)
    (fun _ => Program.grows_addStmtList _ _)
    (fun _ hgrows hbuilt => hbuilt.addStmtList (hat.grows hgrows).refersInto)
  intro program hgrows
  exact ⟨tree, stmts, program.stmtList?_addStmtList stmts,
    (hat.grows hgrows).grows (Program.grows_addStmtList _ _)⟩

theorem builds_addParams {params : List Param}
    (hparams : base.Shows .params params) :
    Builds zone loops base (add fun program => program.addParams params)
      Program.ShowsParams := by
  obtain ⟨tree, hat⟩ := hparams
  apply builds_addOther (fun _ => ⟨rfl, rfl, rfl⟩)
    (fun _ => Program.grows_addParams _ _)
    (fun _ hgrows hbuilt => hbuilt.addParams (hat.grows hgrows).refersInto)
  intro program hgrows
  exact ⟨tree, params, program.params?_addParams params,
    (hat.grows hgrows).grows (Program.grows_addParams _ _)⟩

theorem builds_addNames (names : List String) :
    Builds zone loops base (add fun program => program.addNames names)
      fun program range => program.names? range = some names :=
  builds_addOther (fun _ => ⟨rfl, rfl, rfl⟩)
    (fun _ => Program.grows_addNames _ _) (fun _ _ hbuilt => hbuilt.addNames)
    fun program _ => program.names?_addNames names

theorem builds_addFunc {func : FuncDef} (hparams : base.ShowsParams func.params)
    (hbody : base.ShowsStmts false func.body.stmts) :
    Builds zone loops base (add fun program => program.addFunc func)
      (Program.ShowsFunc · func.name) := by
  apply builds_addOther (fun _ => ⟨rfl, rfl, rfl⟩)
    (fun _ => Program.grows_addFunc _ _)
    (fun _ hgrows hbuilt => hbuilt.addFunc
      ⟨(hparams.grows hgrows).hasParams, (hbody.grows hgrows).hasStmts⟩)
  intro program hgrows
  have hmore := hgrows.trans (Program.grows_addFunc program func)
  obtain ⟨params, hparams⟩ := hparams.grows hmore
  obtain ⟨body, hbody⟩ := hbody.grows hmore
  exact ⟨params, body, func, program.func?_addFunc func, rfl, hparams, hbody⟩

theorem builds_noNames :
    Builds zone loops base (Step.read fun state => state.program.noNames)
      fun program range => program.names? range = some [] :=
  fun state _ _ _ => ⟨.refl state, state.program.names?_noNames⟩

end Rows

end Parse

end ChainScript
