import ChainScript.Parser
import ChainScript.Proofs.Boundaries
import ChainScript.Proofs.BuiltPrograms
import ChainScript.Proofs.EatenTokens

/-
The places that a parser knows.

They are those of its tokens, those of the rows in its tables, and what covers
two of them.  A zone holds all of these if it holds the first ones.  The places
in a text are a zone.
-/

namespace ChainScript

/-- A set of places that holds the origin, and whatever covers two of its
places. -/
structure Zone where
  Has : Span → Prop
  origin : Has .origin
  merge {first second : Span} (hfirst : Has first) (hsecond : Has second) :
    Has (first.merge second)

namespace Zone

/-- The places in a text. -/
def text (chars : List Char) : Zone where
  Has := Span.InText chars
  origin := Span.inText_origin
  merge := Span.InText.merge

/-- All places. -/
def everywhere : Zone where
  Has := fun _ => True
  origin := trivial
  merge := fun _ _ => trivial

end Zone

/-- The span is that of an expression, an entry or a statement of the
program. -/
inductive Program.Places (program : Program) : Span → Prop
  | expr {row : Expr} (hrow : row ∈ program.exprs) : Places program row.span
  | entry {row : Entry} (hrow : row ∈ program.entries) : Places program row.span
  | stmt {row : Stmt} (hrow : row ∈ program.stmts) : Places program row.span

namespace Program

variable {program : Program}

theorem not_places_empty (number : Nat) (span : Span) :
    ¬ (empty number).Places span := by
  intro hspan
  cases hspan with
  | expr hrow => exact Array.not_mem_empty _ hrow
  | entry hrow => exact Array.not_mem_empty _ hrow
  | stmt hrow => exact Array.not_mem_empty _ hrow

theorem places_of_expr? {id : ExprId} {row : Expr}
    (hrow : program.expr? id = some row) : program.Places row.span :=
  .expr (Array.mem_of_getElem? (Ref.row?_eq_some.mp hrow).2)

theorem places_of_stmt? {id : StmtId} {row : Stmt}
    (hrow : program.stmt? id = some row) : program.Places row.span :=
  .stmt (Array.mem_of_getElem? (Ref.row?_eq_some.mp hrow).2)

theorem places_of_entries? {range : EntryRange} {rows : List Entry}
    (hrows : program.entries? range = some rows) {row : Entry}
    (hrow : row ∈ rows) : program.Places row.span := by
  unfold entries? Slice.rows? at hrows
  split at hrows
  · cases hrows
    rw [Array.toList_extract, List.extract_eq_take_drop] at hrow
    have hmem := List.mem_of_mem_drop (List.mem_of_mem_take hrow)
    exact .entry (Array.mem_toList_iff.mp hmem)
  · cases hrows

theorem places_addExpr {row : Expr} {span : Span}
    (hspan : (program.addExpr row).2.Places span) :
    program.Places span ∨ span = row.span := by
  cases hspan with
  | expr hrow =>
      rcases Array.mem_push.mp hrow with hrow | rfl
      · exact .inl (.expr hrow)
      · exact .inr rfl
  | entry hrow => exact .inl (.entry hrow)
  | stmt hrow => exact .inl (.stmt hrow)

theorem places_addStmt {row : Stmt} {span : Span}
    (hspan : (program.addStmt row).2.Places span) :
    program.Places span ∨ span = row.span := by
  cases hspan with
  | expr hrow => exact .inl (.expr hrow)
  | entry hrow => exact .inl (.entry hrow)
  | stmt hrow =>
      rcases Array.mem_push.mp hrow with hrow | rfl
      · exact .inl (.stmt hrow)
      · exact .inr rfl

theorem places_addEntries {rows : List Entry} {span : Span}
    (hspan : (program.addEntries rows).2.Places span) :
    program.Places span ∨ ∃ row ∈ rows, span = row.span := by
  cases hspan with
  | expr hrow => exact .inl (.expr hrow)
  | @entry row hrow =>
      rcases Array.mem_append.mp hrow with hrow | hrow
      · exact .inl (.entry hrow)
      · exact .inr ⟨row, by simpa using hrow, rfl⟩
  | stmt hrow => exact .inl (.stmt hrow)

/-- Rows of the other tables have no places that are reported. -/
theorem places_of_same {after : Program} (hexprs : after.exprs = program.exprs)
    (hentries : after.entries = program.entries)
    (hstmts : after.stmts = program.stmts) {span : Span}
    (hspan : after.Places span) : program.Places span := by
  cases hspan with
  | expr hrow => exact .expr (hexprs ▸ hrow)
  | entry hrow => exact .entry (hentries ▸ hrow)
  | stmt hrow => exact .stmt (hstmts ▸ hrow)

end Program

/-- All places of a report about the error are in the zone. -/
def ParseError.Inside (zone : Zone) (error : ParseError) : Prop :=
  ∀ label ∈ error.diagnostic.labels, zone.Has label.span

/-- The places of the tokens, and of the rows that are there already, are in
the zone. -/
structure ParserState.Inside (zone : Zone) (state : ParserState) : Prop where
  tokens : ∀ token ∈ state.cursor.tokens, zone.Has token.span
  rows : ∀ span, state.program.Places span → zone.Has span

variable {zone : Zone}

theorem ParserState.inside_everywhere (state : ParserState) :
    state.Inside .everywhere :=
  ⟨fun _ _ => trivial, fun _ _ => trivial⟩

theorem ParserState.Inside.start {tokens : List Token}
    (htokens : ∀ token ∈ tokens, zone.Has token.span) (number : Nat) :
    (ParserState.start number tokens).Inside zone :=
  ⟨htokens, fun span hspan =>
    absurd hspan (Program.not_places_empty number span)⟩

namespace ParseError

variable {error : ParseError}

theorem inside_of_related (hspan : zone.Has error.span)
    (hrelated : ∀ label ∈ error.fault.related, zone.Has label.span) :
    error.Inside zone := by
  intro label hlabel
  rcases List.mem_cons.mp hlabel with rfl | hlabel
  · exact hspan
  · exact hrelated label hlabel

theorem Inside.within (herror : error.Inside zone) (context : ParseContext) :
    (error.within context).Inside zone := by
  obtain ⟨fault, span, context⟩ := error
  cases context <;> exact herror

end ParseError

namespace ParserState.Inside

variable {state : ParserState} (hstate : state.Inside zone)

include hstate

theorem passed {token : Token} (htoken : token ∈ state.cursor.passed) :
    zone.Has token.span :=
  hstate.tokens token (List.mem_append_left _ (List.mem_reverse.mpr htoken))

theorem current : zone.Has state.cursor.current.span := by
  unfold Cursor.current
  split
  · next token rest hrest =>
    exact hstate.tokens token (List.mem_append_right _ (by simp [hrest]))
  · cases hpassed : state.cursor.passed with
    | nil => exact zone.origin
    | cons token others =>
        have hmem : token ∈ state.cursor.passed := by simp [hpassed]
        have htoken := hstate.passed hmem
        exact htoken

theorem previousSpan : zone.Has state.cursor.previousSpan := by
  unfold Cursor.previousSpan
  split
  · next token hfound =>
    exact hstate.passed (List.mem_of_find?_eq_some hfound)
  · exact zone.origin

end ParserState.Inside

end ChainScript
