import ChainScript.Proofs.EatenTokens
import ChainScript.Proofs.Progress
import ChainScript.Proofs.SpanTrees

/-
What a parser reads, and from which tokens.

The tokens do not change, so a place in them is the number of tokens before it.
A parser that answers has gone on from there, and what it has read is laid out
on the tokens in between.  The place of the last token is read off backwards,
and this finds the last token that was meant: where line feeds count, none has
been consumed last, and where they do not, they are passed over.
-/

namespace ChainScript

open Step

namespace Cursor

variable {cursor : Cursor} {tokens : List Token}

/-- The number of tokens before the place. -/
def pos (cursor : Cursor) : Nat :=
  cursor.passed.length

/-- Where line feeds count, the last token before the place is none. -/
def Landed (cursor : Cursor) : Prop :=
  cursor.newlinesCount = true → ∀ token, cursor.passed.head? = some token →
    token.isNewline = false

theorem pos_add_rest (cursor : Cursor) :
    cursor.pos + cursor.rest.length = cursor.tokens.length := by
  simp [pos, tokens]

theorem pos_le_of_rest {other : Cursor}
    (htokens : other.tokens = cursor.tokens)
    (hrest : other.rest.length ≤ cursor.rest.length) :
    cursor.pos ≤ other.pos := by
  have hone := cursor.pos_add_rest
  have hother := other.pos_add_rest
  rw [htokens] at hother
  omega

theorem pos_le_advance (cursor : Cursor) : cursor.pos ≤ cursor.advance.pos :=
  pos_le_of_rest cursor.tokens_advance cursor.length_advance_le

theorem pos_lt_advance (hvisible : cursor.kind.isVisible = true) :
    cursor.pos < cursor.advance.pos := by
  have hone := cursor.pos_add_rest
  have hother := cursor.advance.pos_add_rest
  have hrest := cursor.length_advance_lt (TokenKind.ne_eof hvisible)
  rw [tokens_advance] at hother
  omega

theorem isNewline_eq_false {token : Token} (hkind : token.kind ≠ .newline) :
    token.isNewline = false := by
  simpa [Token.isNewline] using hkind

/-- The current token, unless the tokens are at an end. -/
theorem from_span (hvisible : cursor.kind.isVisible = true) :
    cursor.span.From cursor.tokens cursor.pos cursor.pos := by
  obtain ⟨token, rest, hrest, -⟩ :=
    exists_cons_of_kind (TokenKind.ne_eof hvisible)
  have hkind := TokenKind.ne_newline hvisible
  rw [kind, hrest] at hkind
  have htoken : cursor.tokens[cursor.pos]? = some token := by
    simp [tokens, pos, hrest]
  rw [span, current, hrest]
  exact Span.from_token htoken (isNewline_eq_false hkind)

theorem landed_advance (hvisible : cursor.kind.isVisible = true) :
    cursor.advance.Landed := by
  intro hcounts token hhead
  obtain ⟨current, rest, hrest, heof⟩ :=
    exists_cons_of_kind (TokenKind.ne_eof hvisible)
  have hkind := TokenKind.ne_newline hvisible
  rw [kind, hrest] at hkind
  have hsettled : cursor.advance =
      { cursor with passed := current :: cursor.passed, rest } := by
    have hcounts' : cursor.newlinesCount = true := by
      rwa [newlinesCount, modes_advance] at hcounts
    simp only [advance, hrest, heof, if_false]
    unfold settle
    exact if_pos hcounts'
  rw [hsettled] at hhead
  cases hhead
  exact isNewline_eq_false hkind

/-- The last token that is no line feed is the one whose place is read off. -/
theorem exists_previous (hlanded : cursor.Landed) {k : Nat} {span : Span}
    (hbefore : k < cursor.pos) (hspan : span.From cursor.tokens k k) :
    ∃ e, k ≤ e ∧ e < cursor.pos ∧
      cursor.previousSpan.From cursor.tokens e e ∧
      ∀ l token, e < l → l < cursor.pos → cursor.tokens[l]? = some token →
        token.isNewline = true := by
  obtain ⟨-, ⟨start, hstart, hvisible, -⟩, -⟩ := hspan
  let good : Token → Bool := fun token =>
    cursor.newlinesCount || !token.isNewline
  have hin : start ∈ cursor.passed := by
    rw [tokens, List.getElem?_append_left (by simpa [pos] using hbefore)]
      at hstart
    exact List.mem_reverse.mp (List.mem_of_getElem? hstart)
  cases hfound : cursor.passed.find? good with
  | none =>
      have hnone := List.find?_eq_none.mp hfound start hin
      simp [good, hvisible] at hnone
  | some last =>
      obtain ⟨hgood, later, earlier, hpassed, hskipped⟩ :=
        List.find?_eq_some_iff_append.mp hfound
      have hprevious : cursor.previousSpan = last.span := by
        unfold previousSpan
        rw [hfound]
      have htokens : cursor.tokens =
          earlier.reverse ++ last :: (later.reverse ++ cursor.rest) := by
        simp [tokens, hpassed]
      have hlast : cursor.tokens[earlier.length]? = some last := by
        rw [htokens, List.getElem?_append_right (by simp)]
        simp
      have hpos : cursor.pos = later.length + (earlier.length + 1) := by
        simp [pos, hpassed]
      have hlines : ∀ l token, earlier.length < l → l < cursor.pos →
          cursor.tokens[l]? = some token → token.isNewline = true := by
        intro l token hlate hl htoken
        obtain ⟨n, rfl⟩ := Nat.exists_eq_add_of_lt hlate
        have hindex :
            earlier.length + n + 1 - earlier.reverse.length = n + 1 := by
          simp only [List.length_reverse]
          omega
        rw [htokens, List.getElem?_append_right (by simp; omega), hindex,
          List.getElem?_cons_succ,
          List.getElem?_append_left (by simp; omega)] at htoken
        have hlater := List.mem_reverse.mp (List.mem_of_getElem? htoken)
        have hbad := hskipped token hlater
        simp only [good, Bool.not_or, Bool.not_not, Bool.and_eq_true] at hbad
        exact hbad.2
      -- Where line feeds count, the last token is none and not passed over.
      have hlast' : last.isNewline = false := by
        by_cases hcounts : cursor.newlinesCount = true
        · cases later with
          | nil => exact hlanded hcounts last (by simp [hpassed])
          | cons other _ =>
              have hbad := hskipped other List.mem_cons_self
              simp [good, hcounts] at hbad
        · simpa [good, hcounts] using hgood
      refine ⟨earlier.length, ?_, by omega, ?_, hlines⟩
      · by_cases hlate : earlier.length < k
        · have hline := hlines k start hlate hbefore hstart
          rw [hvisible] at hline
          cases hline
        · omega
      · rw [hprevious]
        exact Span.from_token hlast hlast'

end Cursor

namespace ParserState

/-- The tokens are those of old, the place is not before the old one, and rows
have only been added. -/
structure ReadsTo (tokens : List Token) (before after : ParserState) :
    Prop where
  tokens_eq : after.cursor.tokens = tokens
  pos_le : before.cursor.pos ≤ after.cursor.pos
  grows : before.program.Grows after.program

/-- A token that is no line feed has been consumed, and the span is its
place. -/
structure Consumes (tokens : List Token) (before after : ParserState)
    (span : Span) : Prop where
  from_ : span.From tokens before.cursor.pos before.cursor.pos
  pos_lt : before.cursor.pos < after.cursor.pos
  landed : after.cursor.Landed

/-- What has been read from a position on is laid out there. -/
structure HasRead (tokens : List Token) (a : Nat) (refs : List PartRef)
    (state : ParserState) : Prop where
  placed : Placed tokens state.program a state.cursor.pos refs
  landed : state.cursor.Landed

/-- The span goes from the `a`th token to the `j`th, which has been consumed,
and what has been read is laid out on these tokens. -/
structure Covers (tokens : List Token) (a j : Nat) (span : Span)
    (refs : List PartRef) (state : ParserState) : Prop where
  from_ : span.From tokens a j
  lt_pos : j < state.cursor.pos
  placed : Placed tokens state.program a (j + 1) refs
  landed : state.cursor.Landed

variable {tokens : List Token} {before middle after : ParserState}

theorem ReadsTo.refl {state : ParserState}
    (htokens : state.cursor.tokens = tokens) : ReadsTo tokens state state :=
  ⟨htokens, Nat.le_refl _, .refl _⟩

theorem ReadsTo.trans (hfirst : ReadsTo tokens before middle)
    (hsecond : ReadsTo tokens middle after) : ReadsTo tokens before after :=
  ⟨hsecond.tokens_eq, Nat.le_trans hfirst.pos_le hsecond.pos_le,
    hfirst.grows.trans hsecond.grows⟩

theorem HasRead.mono {a b : Nat} {refs : List PartRef} {state : ParserState}
    (hread : state.HasRead tokens b refs) (hle : a ≤ b) :
    state.HasRead tokens a refs :=
  ⟨hread.placed.mono hle (Nat.le_refl _), hread.landed⟩

/-- The part that consists of all this. -/
theorem Covers.node {a b j : Nat} {part : Part} {state : ParserState}
    (hcovers : state.Covers tokens b j part.span part.refs) (hle : a ≤ b) :
    state.HasRead tokens a [.part part] :=
  ⟨.node hle hcovers.lt_pos hcovers.from_ hcovers.placed, hcovers.landed⟩

end ParserState

/-- What is placed stays placed while a parser goes on. -/
theorem Placed.reads {tokens : List Token} {before after : ParserState}
    {a : Nat} {refs : List PartRef}
    (hplaced : Placed tokens before.program a before.cursor.pos refs)
    (hreads : ParserState.ReadsTo tokens before after) :
    Placed tokens after.program a after.cursor.pos refs :=
  (hplaced.grows hreads.grows).mono (Nat.le_refl a) hreads.pos_le

namespace Parse

open ParserState

variable {α β : Type} {tokens : List Token} {before : ParserState}
  {parser : Parse α} {Good : α → ParserState → Prop} {a : Nat}

/-- From the state the parser reads on if it answers, and what it leaves is
good. -/
def ReadsAt (tokens : List Token) (parser : Parse α) (before : ParserState)
    (Good : α → ParserState → Prop) : Prop :=
  before.cursor.tokens = tokens → ∀ value after,
    parser before = (.ok value, after) →
      ReadsTo tokens before after ∧ Good value after

theorem readsAt_pure {value : α} (hgood : Good value before) :
    ReadsAt tokens (pure value) before Good := by
  rintro htokens _ _ ⟨⟩
  exact ⟨.refl htokens, hgood⟩

theorem readsAt_error {error : ParserState → ParseError} :
    ReadsAt tokens (fun state => (.error (error state), state)) before
      Good := by
  rintro _ _ _ ⟨⟩

theorem readsAt_fault (cause : TokenKind → ParseFault) :
    ReadsAt tokens (fault cause) before Good :=
  readsAt_error

theorem readsAt_faultAt (span : Span) (cause : ParseFault) :
    ReadsAt tokens (faultAt span cause) before Good :=
  readsAt_error

theorem readsAt_halt (reason : Halt) :
    ReadsAt tokens (Step.halt reason) before Good := by
  rintro _ _ _ ⟨⟩

theorem ReadsAt.mono {Better : α → ParserState → Prop}
    (hparser : ReadsAt tokens parser before Better)
    (hgood : ∀ value after, Better value after → Good value after) :
    ReadsAt tokens parser before Good := by
  intro htokens value after hrun
  obtain ⟨hreads, hbetter⟩ := hparser htokens value after hrun
  exact ⟨hreads, hgood value after hbetter⟩

theorem ReadsAt.bind {next : α → Parse β} {Better : α → ParserState → Prop}
    {Good : β → ParserState → Prop}
    (hfirst : ReadsAt tokens parser before Better)
    (hnext : ∀ value middle, ReadsTo tokens before middle →
      Better value middle → ReadsAt tokens (next value) middle Good) :
    ReadsAt tokens (parser >>= next) before Good := by
  intro htokens value after hrun
  rw [bind_apply] at hrun
  rcases hparser : parser before with ⟨outcome, middle⟩
  rw [hparser] at hrun
  cases outcome with
  | ok first =>
      obtain ⟨hreads, hbetter⟩ := hfirst htokens first middle hparser
      obtain ⟨hreads', hgood⟩ := hnext first middle hreads hbetter
        hreads.tokens_eq value after hrun
      exact ⟨hreads.trans hreads', hgood⟩
  | error error => cases hrun
  | halted reason => cases hrun

/-- More is read behind what has been read before. -/
theorem ReadsAt.andThen {next : α → Parse β} {Good : β → ParserState → Prop}
    {refs : List PartRef} {more : α → List PartRef}
    (hfirst : ReadsAt tokens parser before fun value middle =>
      middle.HasRead tokens before.cursor.pos (more value))
    (hplaced : Placed tokens before.program a before.cursor.pos refs)
    (hnext : ∀ value middle, ReadsTo tokens before middle →
      middle.HasRead tokens a (refs ++ more value) →
      ReadsAt tokens (next value) middle Good) :
    ReadsAt tokens (parser >>= next) before Good :=
  hfirst.bind fun value middle hreads hmore =>
    hnext value middle hreads
      ⟨(hplaced.grows hreads.grows).append hmore.placed, hmore.landed⟩

/-- Tokens are passed over that are in no part. -/
theorem ReadsAt.skip {next : α → Parse β} {Any : α → ParserState → Prop}
    {refs : β → List PartRef}
    (hparser : ReadsAt tokens parser before Any)
    (hnext : ∀ value (middle : ParserState), Any value middle →
      ReadsAt tokens (next value) middle fun result after =>
        after.HasRead tokens middle.cursor.pos (refs result)) :
    ReadsAt tokens (parser >>= next) before fun result after =>
      after.HasRead tokens before.cursor.pos (refs result) :=
  hparser.bind fun value middle hreads hany =>
    (hnext value middle hany).mono fun _ _ hread => hread.mono hreads.pos_le

/-- A parser that answers has consumed tokens. -/
theorem ReadsAt.consumes {depth count : Nat}
    (hsteady : SteadyAt depth count parser before)
    (hparser : ReadsAt tokens parser before Good) :
    ReadsAt tokens parser before fun value after =>
      before.cursor.pos + count ≤ after.cursor.pos ∧ Good value after := by
  intro htokens value after hrun
  obtain ⟨hreads, hgood⟩ := hparser htokens value after hrun
  have hrest := hsteady.consumes value (congrArg Prod.fst hrun)
  simp only [hrun] at hrest
  have hone := before.cursor.pos_add_rest
  have hother := after.cursor.pos_add_rest
  rw [hreads.tokens_eq, ← htokens] at hother
  exact ⟨hreads, by omega, hgood⟩

/-- What is read off the state is known from then on. -/
theorem readsAt_read {f : ParserState → α} {next : α → Parse β}
    {Good : β → ParserState → Prop}
    (hnext : ReadsAt tokens (next (f before)) before Good) :
    ReadsAt tokens (Step.read f >>= next) before Good :=
  hnext

theorem readsAt_look {f : Cursor → α} {next : α → Parse β}
    {Good : β → ParserState → Prop}
    (hnext : ReadsAt tokens (next (f before.cursor)) before Good) :
    ReadsAt tokens (look f >>= next) before Good :=
  hnext

section Tokens

theorem readsAt_move {f : Cursor → Cursor}
    (htokens : ∀ cursor, (f cursor).tokens = cursor.tokens)
    (hpos : ∀ cursor : Cursor, cursor.pos ≤ (f cursor).pos) :
    ReadsAt tokens (move f) before fun _ after =>
      after = { before with cursor := f before.cursor } := by
  rintro hsame _ _ ⟨⟩
  exact ⟨⟨(htokens _).trans hsame, hpos _, .refl _⟩, rfl⟩

theorem readsAt_skipNewlines :
    ReadsAt tokens skipNewlines before fun _ after =>
      after = { before with cursor := before.cursor.skipNewlines } :=
  readsAt_move Cursor.tokens_skipNewlines fun cursor =>
    Cursor.pos_le_of_rest cursor.tokens_skipNewlines
      cursor.length_skipNewlines_le

/-- Any token may be consumed. -/
theorem readsAt_advance :
    ReadsAt tokens advance before fun _ _ => True := by
  rintro htokens _ _ ⟨⟩
  exact ⟨⟨before.cursor.tokens_advance.trans htokens,
    before.cursor.pos_le_advance, .refl _⟩, trivial⟩

/-- The state after the current token. -/
theorem consumes_advance (htokens : before.cursor.tokens = tokens)
    (hvisible : before.cursor.kind.isVisible = true) :
    Consumes tokens before { before with cursor := before.cursor.advance }
      before.cursor.span where
  from_ := htokens ▸ Cursor.from_span hvisible
  pos_lt := Cursor.pos_lt_advance hvisible
  landed := Cursor.landed_advance hvisible

theorem readsTo_advance (htokens : before.cursor.tokens = tokens) :
    ReadsTo tokens before { before with cursor := before.cursor.advance } :=
  ⟨before.cursor.tokens_advance.trans htokens, before.cursor.pos_le_advance,
    .refl _⟩

theorem readsAt_token (hvisible : before.cursor.kind.isVisible = true) :
    ReadsAt tokens advance before fun token after =>
      Consumes tokens before after token.span := by
  rintro htokens _ _ ⟨⟩
  exact ⟨readsTo_advance htokens, consumes_advance htokens hvisible⟩

theorem isVisible_of_check {cursor : Cursor} {kind : TokenKind}
    (hkind : kind.isVisible = true) (hcheck : cursor.check kind = true) :
    cursor.kind.isVisible = true := by
  unfold Cursor.check at hcheck
  cases hfound : cursor.kind with
  | newline | eof =>
      rw [hfound] at hcheck
      cases kind <;> simp_all [TokenKind.sameVariant, TokenKind.isVisible]
  | _ => rfl

theorem readsAt_expect {kind : TokenKind} (hkind : kind.isVisible = true) :
    ReadsAt tokens (expect kind) before fun token after =>
      Consumes tokens before after token.span := by
  intro htokens token after hrun
  unfold expect ofCursor Cursor.expect at hrun
  by_cases hcheck : before.cursor.check kind = true
  · simp only [hcheck, if_true] at hrun
    cases hrun
    have hvisible := isVisible_of_check hkind hcheck
    exact ⟨readsTo_advance htokens, consumes_advance htokens hvisible⟩
  · simp [hcheck] at hrun

theorem readsAt_expectIdent :
    ReadsAt tokens expectIdent before fun _ after =>
      Consumes tokens before after before.cursor.span := by
  intro htokens name after hrun
  unfold expectIdent ofCursor Cursor.expectIdent at hrun
  cases hname : before.cursor.ident? with
  | none => simp [hname] at hrun
  | some found =>
      simp only [hname] at hrun
      cases hrun
      have hvisible : before.cursor.kind.isVisible = true := by
        unfold Cursor.ident? at hname
        cases hkind : before.cursor.kind <;> rw [hkind] at hname <;>
          first | rfl | cases hname
      exact ⟨readsTo_advance htokens, consumes_advance htokens hvisible⟩

theorem readsAt_eat {kind : TokenKind} (hkind : kind.isVisible = true) :
    ReadsAt tokens (eat kind) before fun found after =>
      (found = true → Consumes tokens before after before.cursor.span) ∧
        (found = false → after = before) := by
  intro htokens found after hrun
  unfold eat Cursor.eat at hrun
  by_cases hcheck : before.cursor.check kind = true
  · simp only [update_apply, hcheck, if_true] at hrun
    cases hrun
    have hvisible := isVisible_of_check hkind hcheck
    exact ⟨readsTo_advance htokens,
      fun _ => consumes_advance htokens hvisible, nofun⟩
  · simp only [update_apply, hcheck] at hrun
    cases hrun
    exact ⟨.refl htokens, nofun, fun _ => rfl⟩

end Tokens

section Combinators

theorem ReadsAt.within (hparser : ReadsAt tokens parser before Good)
    (context : ParseContext) :
    ReadsAt tokens (within context parser) before Good := by
  intro htokens value after hrun
  unfold Parse.within mapError at hrun
  rcases hinner : parser before with ⟨outcome, middle⟩
  rw [hinner] at hrun
  cases outcome <;> cases hrun
  exact hparser htokens value after hinner

theorem readsAt_inRegion {newlinesCount : Bool}
    (hparser : ∀ entered : ParserState, entered.program = before.program →
      before.cursor.pos ≤ entered.cursor.pos →
      (before.cursor.kind.isVisible = true →
        entered.cursor.pos = before.cursor.pos ∧
          entered.cursor.kind = before.cursor.kind) →
      ReadsAt tokens parser entered fun value inner =>
        Good value { inner with cursor := inner.cursor.pop }) :
    ReadsAt tokens (inRegion newlinesCount parser) before Good := by
  intro htokens value after hrun
  let entered : ParserState :=
    { before with cursor := before.cursor.push newlinesCount }
  have hentered : entered.cursor.tokens = before.cursor.tokens :=
    before.cursor.tokens_push newlinesCount
  have hpos : before.cursor.pos ≤ entered.cursor.pos :=
    Cursor.pos_le_of_rest hentered (before.cursor.length_push_le newlinesCount)
  have hkept : before.cursor.kind.isVisible = true →
      entered.cursor.pos = before.cursor.pos ∧
        entered.cursor.kind = before.cursor.kind := by
    intro hvisible
    have hrest : entered.cursor.rest = before.cursor.rest :=
      Cursor.rest_settle fun _ => TokenKind.ne_newline hvisible
    have hone := before.cursor.pos_add_rest
    have hother := entered.cursor.pos_add_rest
    rw [hentered, hrest] at hother
    exact ⟨by omega, Cursor.kind_push hvisible⟩
  cases hinner : parser entered with
  | mk outcome inner =>
      have hsplit : inRegion newlinesCount parser before =
          (outcome, { inner with cursor := inner.cursor.pop }) := by
        change ((parser entered).1, _) = _
        rw [hinner]
      rw [hsplit] at hrun
      cases hrun
      obtain ⟨⟨hsame, hle, hgrows⟩, hgood⟩ := hparser entered rfl hpos hkept
        (hentered.trans htokens) value inner hinner
      exact ⟨⟨hsame, Nat.le_trans hpos hle, hgrows⟩, hgood⟩

/-- From every state the parser reads what its result refers to. -/
def Reads (tokens : List Token) (refs : α → List PartRef) (parser : Parse α) :
    Prop :=
  ∀ before, ReadsAt tokens parser before fun value after =>
    after.HasRead tokens before.cursor.pos (refs value)

variable {refs : α → List PartRef}

theorem Reads.inLoop (hparser : Reads tokens refs parser) :
    Reads tokens refs (inLoop parser) := by
  intro before htokens value after hrun
  let entered : ParserState :=
    { before with loopDepth := before.loopDepth + 1 }
  cases hinner : parser entered with
  | mk outcome inner =>
      have hsplit : Parse.inLoop parser before =
          (outcome, { inner with loopDepth := inner.loopDepth - 1 }) := by
        change ((parser entered).1, _) = _
        rw [hinner]
      rw [hsplit] at hrun
      cases hrun
      obtain ⟨⟨hsame, hle, hgrows⟩, ⟨hplaced, hlanded⟩⟩ :=
        hparser entered htokens value inner hinner
      exact ⟨⟨hsame, hle, hgrows⟩, ⟨hplaced, hlanded⟩⟩

theorem Reads.inFunction (hparser : Reads tokens refs parser) :
    Reads tokens refs (inFunction parser) := by
  intro before htokens value after hrun
  let entered : ParserState := { before with loopDepth := 0 }
  cases hinner : parser entered with
  | mk outcome inner =>
      have hsplit : Parse.inFunction parser before =
          (outcome, { inner with loopDepth := before.loopDepth }) := by
        change ((parser entered).1, _) = _
        rw [hinner]
      rw [hsplit] at hrun
      cases hrun
      obtain ⟨⟨hsame, hle, hgrows⟩, ⟨hplaced, hlanded⟩⟩ :=
        hparser entered htokens value inner hinner
      exact ⟨⟨hsame, hle, hgrows⟩, ⟨hplaced, hlanded⟩⟩

theorem Reads.within (hparser : Reads tokens refs parser)
    (context : ParseContext) : Reads tokens refs (within context parser) :=
  fun before => (hparser before).within context

end Combinators

section Rows

variable {i j : Nat} {span : Span}

theorem readsAt_add {f : Program → α × Program}
    (hgrows : before.program.Grows (f before.program).2) :
    ReadsAt tokens (add f) before fun value after =>
      value = (f before.program).1 ∧
        after = { before with program := (f before.program).2 } := by
  rintro htokens _ _ ⟨⟩
  exact ⟨⟨htokens, Nat.le_refl _, hgrows⟩, rfl, rfl⟩

/-- The expression that consists of what has been read. -/
theorem readsAt_addExpr {kind : ExprKind}
    (hcovers : before.Covers tokens i j span kind.refs) (hle : a ≤ i) :
    ReadsAt tokens (addExpr kind span) before fun id after =>
      after.HasRead tokens a [.expr id] := by
  refine (readsAt_add (Program.grows_addExpr _ _)).mono ?_
  rintro _ _ ⟨rfl, rfl⟩
  exact ⟨.addExpr hle hcovers.lt_pos hcovers.from_ hcovers.placed,
    hcovers.landed⟩

theorem readsAt_addStmt {kind : StmtKind}
    (hcovers : before.Covers tokens i j span kind.refs) (hle : a ≤ i) :
    ReadsAt tokens (addStmt kind span) before fun id after =>
      after.HasRead tokens a [.stmt id] := by
  refine (readsAt_add (Program.grows_addStmt _ _)).mono ?_
  rintro _ _ ⟨rfl, rfl⟩
  exact ⟨.addStmt hle hcovers.lt_pos hcovers.from_ hcovers.placed,
    hcovers.landed⟩

/-- The row of an expression that has been read. -/
theorem readsAt_expr_bind {id : ExprId} {b : Nat} {next : Expr → Parse β}
    {Good : β → ParserState → Prop}
    (hplaced : Placed tokens before.program a b [.expr id])
    (hnext : ∀ row i j, a ≤ i → j < b → row.span.From tokens i j →
      Placed tokens before.program i (j + 1) [.expr id] →
      ReadsAt tokens (next row) before Good) :
    ReadsAt tokens (expr id >>= next) before Good := by
  obtain ⟨row, i, j, hrow, hi, hj, hspan, hexact⟩ := hplaced.exists_expr
  have hread : (expr id >>= next) before = next row before := by
    simp [expr, bind_apply, hrow, found, Outcome.ofOption]
  intro htokens value after hrun
  rw [hread] at hrun
  exact hnext row i j hi hj hspan hexact htokens value after hrun

theorem readsAt_spanOf_bind {id : ExprId} {b : Nat} {next : Span → Parse β}
    {Good : β → ParserState → Prop}
    (hplaced : Placed tokens before.program a b [.expr id])
    (hnext : ∀ span i j, a ≤ i → j < b → span.From tokens i j →
      Placed tokens before.program i (j + 1) [.expr id] →
      ReadsAt tokens (next span) before Good) :
    ReadsAt tokens (spanOf id >>= next) before Good := by
  rw [spanOf, Step.bind_assoc]
  exact readsAt_expr_bind hplaced fun row => hnext row.span

section Merged

variable {k : Nat} {start last : Span} {refs : List PartRef} {id : ExprId}
  {next : Span → Parse β} {Good : β → ParserState → Prop}
  (hordered : OrderedTokens tokens)

include hordered

/-- The place that is read off backwards is that of the last token behind the
first one that is no line feed, and what has been read ends there. -/
theorem readsAt_previousSpan_bind (hread : before.HasRead tokens k refs)
    (hstart : start.From tokens k k) (hlt : k < before.cursor.pos)
    (hnext : ∀ last j, before.Covers tokens k j (start.merge last) refs →
      ReadsAt tokens (next last) before Good) :
    ReadsAt tokens (previousSpan >>= next) before Good := by
  intro htokens
  subst htokens
  obtain ⟨e, hle, hlate, hlast, hlines⟩ :=
    Cursor.exists_previous hread.landed hlt hstart
  have htrim := hread.placed.trim (Nat.le_succ_of_le hle) hlines
  have hspan := hstart.merge hordered hlast hle hle
  exact hnext _ e ⟨hspan, hlate, htrim, hread.landed⟩ rfl

/-- An expression is read behind what it is joined to. -/
theorem readsAt_operand_bind (hstart : start.From tokens i j) (hlt : j < k)
    (hread : before.HasRead tokens k [.expr id])
    (hnext : ∀ own e, before.Covers tokens i e (start.merge own) [.expr id] →
      ReadsAt tokens (next own) before Good) :
    ReadsAt tokens (spanOf id >>= next) before Good := by
  refine readsAt_spanOf_bind hread.placed ?_
  intro own l e hl he hown hexact
  have hij := hstart.le
  have hle := hown.le
  have hspan := hstart.merge hordered hown (by omega) (by omega)
  have hplaced := hexact.mono (by omega : i ≤ l) (Nat.le_refl _)
  exact hnext own e ⟨hspan, he, hplaced, hread.landed⟩

/-- What is read behind an expression is joined to it, up to its last
tokens. -/
theorem readsAt_receiver_bind
    (hplaced : Placed tokens before.program a k [.expr id])
    (hrefs : Placed tokens before.program k (j + 1) refs)
    (hlast : last.From tokens i j) (hle : k ≤ i) (hlt : j < before.cursor.pos)
    (hlanded : before.cursor.Landed)
    (hnext : ∀ own e, a ≤ e →
      before.Covers tokens e j (own.merge last) ([.expr id] ++ refs) →
      ReadsAt tokens (next own) before Good) :
    ReadsAt tokens (spanOf id >>= next) before Good := by
  refine readsAt_spanOf_bind hplaced ?_
  intro own e l he hl hown hexact
  have hij := hlast.le
  have hel := hown.le
  have hspan := hown.merge hordered hlast (by omega) (by omega)
  have hboth := hexact.append (hrefs.mono hl (Nat.le_refl _))
  exact hnext own e he ⟨hspan, hlt, hboth, hlanded⟩

end Merged

end Rows

end Parse

end ChainScript
