import ChainScript.Parser
import ChainScript.Proofs.PlacedRuns

/-
Expressions, entries and parameters are laid out on their tokens.

A row begins at a token that has been consumed, or where its first operand
begins, and ends at the token consumed last, or where its last operand ends.
What is written between two delimiters stands between them.  A group has no row
of its own: what is in it is placed inside the parentheses.
-/

namespace ChainScript

open Step

namespace Parse

open ParserState

/-- The parser reads an expression. -/
abbrev ReadsExpr (tokens : List Token) (parser : Parse ExprId) : Prop :=
  Reads tokens (fun id => [.expr id]) parser

/-- From every state the parser reads what its result refers to, and may go on
to line feeds behind it. -/
def Places {α : Type} (tokens : List Token) (refs : α → List PartRef)
    (parser : Parse α) : Prop :=
  ∀ before, ReadsAt tokens parser before fun value after =>
    Placed tokens after.program before.cursor.pos after.cursor.pos (refs value)

/-- From the state the parser reads a form of statements. -/
abbrev ReadsForm (tokens : List Token) (parser : Parse StmtKind)
    (before : ParserState) : Prop :=
  ReadsAt tokens parser before fun form after =>
    after.HasRead tokens before.cursor.pos form.refs

/-- The rules that are referred back to read what they are there for.  A
further branch is only read at a word. -/
structure GrammarReads (tokens : List Token) (grammar : Grammar) : Prop where
  expr : ReadsExpr tokens (grammar .expr)
  notExpr : ReadsExpr tokens (grammar .notExpr)
  signExpr : ReadsExpr tokens (grammar .signExpr)
  block : Reads tokens (fun body => [.part (.block body)]) (grammar .block)
  branch : ∀ before : ParserState, before.cursor.kind.isVisible = true →
    ReadsForm tokens (grammar .branch) before

variable {tokens : List Token} {grammar : Grammar} {before : ParserState}
  {a k : Nat}

theorem isVisible_of_some {α : Type} {read? : TokenKind → Option α}
    {kind : TokenKind} {found : α} (hline : read? .newline = none)
    (hend : read? .eof = none) (hfound : read? kind = some found) :
    kind.isVisible = true := by
  cases kind with
  | newline => exact nomatch hline.symm.trans hfound
  | eof => exact nomatch hend.symm.trans hfound
  | _ => rfl

theorem isVisible_of_eq {kind found : TokenKind} (hfound : found = kind)
    (hkind : kind.isVisible = true) : found.isVisible = true :=
  hfound ▸ hkind

/-- The current token is one of the tokens. -/
theorem readsAt_current {α : Type} {parser : Parse α}
    {Good : α → ParserState → Prop}
    (hvisible : before.cursor.kind.isVisible = true)
    (hparser : before.cursor.span.From tokens before.cursor.pos
        before.cursor.pos → ReadsAt tokens parser before Good) :
    ReadsAt tokens parser before Good := by
  intro htokens
  subst htokens
  exact hparser (Cursor.from_span hvisible) rfl

theorem Reads.places {α : Type} {refs : α → List PartRef} {parser : Parse α}
    (hparser : Reads tokens refs parser) : Places tokens refs parser :=
  fun before => (hparser before).mono fun _ _ hread => hread.placed

/-- The number of rounds makes no difference to where things stand. -/
theorem places_rounds_bind {α : Type} {refs : α → List PartRef}
    {loop : Nat → Parse α}
    (hloop : ∀ rounds, Places tokens refs (loop rounds)) :
    Places tokens refs (rounds >>= loop) :=
  fun before => readsAt_look (hloop _ before)

/-- Nothing is read by entering a region or by leaving it. -/
theorem Places.inRegion {α : Type} {refs : α → List PartRef}
    {parser : Parse α} {newlinesCount : Bool}
    (hparser : Places tokens refs parser) :
    Places tokens refs (inRegion newlinesCount parser) :=
  fun _ => readsAt_inRegion fun entered _ hle _ =>
    (hparser entered).mono fun _ _ hplaced =>
      hplaced.mono hle (Nat.le_refl _)

/-- What stands in a region is behind the delimiter that opens it. -/
theorem readsAt_opened {α : Type} {refs : α → List PartRef} {inner : Parse α}
    {newlinesCount : Bool} (hvisible : before.cursor.kind.isVisible = true)
    (hinner : Places tokens refs inner) :
    ReadsAt tokens (inRegion newlinesCount (do let _ ← advance; inner)) before
      fun value after => before.cursor.pos < after.cursor.pos ∧
        Placed tokens after.program (before.cursor.pos + 1) after.cursor.pos
          (refs value) := by
  refine readsAt_inRegion fun entered _ _ hkept => ?_
  obtain ⟨hpos, hkind⟩ := hkept hvisible
  refine (readsAt_token (hkind ▸ hvisible)).bind fun _ middle _ htoken => ?_
  refine (hinner middle).mono fun value after hplaced => ?_
  have hlt := htoken.pos_lt
  have hle := hplaced.le
  rw [hpos] at hlt
  exact ⟨Nat.lt_of_lt_of_le hlt hle, hplaced.mono hlt (Nat.le_refl _)⟩

theorem readsAt_addEntries {entries : List Entry} {j : Nat} {span : Span}
    (hcovers : before.Covers tokens a j span
      (entries.map fun row => .part (.entry row))) :
    ReadsAt tokens (addEntries entries) before fun range after =>
      after.Covers tokens a j span [.entries range] := by
  refine (readsAt_add (Program.grows_addEntries _ _)).mono ?_
  rintro _ _ ⟨rfl, rfl⟩
  exact ⟨hcovers.from_, hcovers.lt_pos, .addEntries hcovers.placed,
    hcovers.landed⟩

section Entries

variable (hordered : OrderedTokens tokens)
  (hgrammar : GrammarReads tokens grammar)

include hordered hgrammar

/-- The place of an entry begins at its key, its dots or its value. -/
theorem reads_entry :
    Reads tokens (fun row => [.part (.entry row)]) (entry grammar) := by
  intro before
  refine readsAt_look ?_
  refine (readsAt_eat rfl).bind fun found middle _ heaten => ?_
  cases found with
  | true =>
      have hdots := heaten.1 rfl
      refine readsAt_expectIdent.bind fun name after hreads hname => ?_
      have hlt := Nat.lt_of_lt_of_le hdots.pos_lt hreads.pos_le
      have hread : after.HasRead tokens before.cursor.pos [] :=
        ⟨.nil (Nat.le_of_lt hlt), hname.landed⟩
      exact readsAt_previousSpan_bind hordered hread hdots.from_ hlt
        fun _ _ hcovers => readsAt_pure (hcovers.node (Nat.le_refl _))
  | false =>
      obtain rfl := heaten.2 rfl
      refine readsAt_look (readsAt_look ?_)
      split
      · next key hkey hcolon =>
          have hvisible := isVisible_of_some rfl rfl hkey
          refine readsAt_current hvisible fun hfrom => ?_
          refine (readsAt_token hvisible).bind fun _ after _ htoken => ?_
          refine readsAt_advance.bind fun _ behind hreads _ => ?_
          refine (hgrammar.expr behind).bind fun value final _ hvalue => ?_
          have hlt := Nat.lt_of_lt_of_le htoken.pos_lt hreads.pos_le
          exact readsAt_operand_bind hordered hfrom hlt hvalue
            fun _ _ hcovers => readsAt_pure (hcovers.node (Nat.le_refl _))
      · refine (hgrammar.expr middle).bind fun value final _ hvalue => ?_
        refine readsAt_spanOf_bind hvalue.placed ?_
        intro span i j hi hj hspan hexact
        exact readsAt_pure ⟨.node hi hj hspan hexact, hvalue.landed⟩

theorem places_entriesFrom (opener : TokenKind) (place : Span)
    (close : TokenKind) (rounds : Nat) (comma : Bool) :
    Places tokens (fun result => result.1.map fun row => .part (.entry row))
      (entriesFrom grammar opener place close rounds comma) := by
  induction rounds generalizing comma with
  | zero => exact fun _ => readsAt_halt _
  | succ rounds ih =>
      intro before
      refine readsAt_look ?_
      split
      · exact readsAt_pure (.nil (Nat.le_refl _))
      · refine (reads_entry hordered hgrammar before).bind ?_
        intro first middle _ hfirst
        refine (readsAt_eat rfl).bind fun found after hreads _ => ?_
        refine readsAt_look ?_
        split
        · exact readsAt_fault _
        · refine (ih found after).bind fun others final hreads' hothers => ?_
          have hplaced := hfirst.placed.reads hreads
          exact readsAt_pure ((hplaced.grows hreads'.grows).append hothers)

/-- The entries stand between the delimiters. -/
theorem readsAt_delimited {opener close : TokenKind}
    (hclose : close.isVisible = true)
    (hvisible : before.cursor.kind.isVisible = true) :
    ReadsAt tokens (delimited grammar opener close) before fun result after =>
      ∃ j, after.Covers tokens before.cursor.pos j result.2.2
        (result.1.map fun row => .part (.entry row)) := by
  refine readsAt_current hvisible fun hfrom => ?_
  refine readsAt_look ?_
  have hloop : ∀ rounds, Places tokens
      (fun result => result.1.map fun row => .part (.entry row))
      (entriesFrom grammar opener before.cursor.span close rounds false) :=
    fun rounds => places_entriesFrom hordered hgrammar _ _ _ rounds _
  refine (readsAt_opened hvisible (places_rounds_bind hloop)).bind ?_
  rintro ⟨entries, comma⟩ middle _ ⟨hlt, hplaced⟩
  refine (readsAt_expect hclose).bind fun last after hreads hlast => ?_
  have hle := Nat.le_of_lt hlt
  have hspan := hfrom.merge hordered hlast.from_ hle hle
  have hentries := (hplaced.grows hreads.grows).mono (Nat.le_succ _)
    (Nat.le_succ _)
  exact readsAt_pure ⟨_, hspan, hlast.pos_lt, hentries, hlast.landed⟩

theorem readsAt_arrayLiteral (hvisible : before.cursor.kind.isVisible = true) :
    ReadsAt tokens (arrayLiteral grammar) before fun id after =>
      after.HasRead tokens before.cursor.pos [.expr id] := by
  refine ReadsAt.within ?_ _
  refine (readsAt_delimited hordered hgrammar rfl hvisible).bind ?_
  rintro ⟨entries, _, span⟩ middle _ ⟨j, hcovers⟩
  refine (readsAt_addEntries hcovers).bind fun range after _ hrange => ?_
  exact readsAt_addExpr hrange (Nat.le_refl _)

theorem readsAt_parenthesised
    (hvisible : before.cursor.kind.isVisible = true) :
    ReadsAt tokens (parenthesised grammar) before fun id after =>
      after.HasRead tokens before.cursor.pos [.expr id] := by
  refine ((readsAt_delimited hordered hgrammar rfl hvisible).within _).bind ?_
  rintro ⟨entries, comma, span⟩ middle _ ⟨j, hcovers⟩
  dsimp only
  split
  · next inner _ =>
      -- The entry of a group is given up, and its expression stays in place.
      obtain ⟨i, e, hi, he, _, hinner, _⟩ := hcovers.placed.exists_from
      have hlt := hcovers.lt_pos
      exact readsAt_pure ⟨hinner.mono hi (by omega), hcovers.landed⟩
  · refine (readsAt_addEntries hcovers).bind fun range after _ hrange => ?_
    exact readsAt_addExpr hrange (Nat.le_refl _)

theorem readsAt_call {callee : ExprId}
    (hcallee : before.HasRead tokens a [.expr callee])
    (hvisible : before.cursor.kind.isVisible = true) :
    ReadsAt tokens (call grammar callee) before fun id after =>
      after.HasRead tokens a [.expr id] := by
  refine ReadsAt.within ?_ _
  refine (readsAt_delimited hordered hgrammar rfl hvisible).bind ?_
  rintro ⟨entries, _, span⟩ middle hreads ⟨j, hcovers⟩
  refine (readsAt_addEntries hcovers).bind fun range after hreads' hrange => ?_
  have hplaced := hcallee.placed.grows (hreads.trans hreads').grows
  exact readsAt_receiver_bind hordered hplaced hrange.placed hrange.from_
    (Nat.le_refl _) hrange.lt_pos hrange.landed
    fun _ _ hle hcovers => readsAt_addExpr hcovers hle

end Entries

section Postfix

variable (hordered : OrderedTokens tokens)

include hordered

/-- An operand is followed by one more token. -/
theorem readsAt_member {receiver : ExprId}
    (hreceiver : before.HasRead tokens a [.expr receiver]) :
    ReadsAt tokens (member receiver) before fun id after =>
      after.HasRead tokens a [.expr id] := by
  refine ReadsAt.within ?_ _
  refine readsAt_advance.bind fun _ middle hreads _ => ?_
  refine readsAt_look ?_
  dsimp only
  split
  · exact readsAt_fault _
  · next key hkey =>
      have hvisible : middle.cursor.kind.isVisible = true := by
        rw [← Cursor.kind_current]
        cases hkind : middle.cursor.current.kind <;> rw [hkind] at hkey <;>
          first | rfl | cases hkey
      refine readsAt_current hvisible fun hfrom => ?_
      refine (readsAt_token hvisible).bind fun _ after hreads' htoken => ?_
      have hplaced := hreceiver.placed.grows (hreads.trans hreads').grows
      have hnone : Placed tokens after.program before.cursor.pos
          (middle.cursor.pos + 1) [] := .nil (Nat.le_succ_of_le hreads.pos_le)
      exact readsAt_receiver_bind hordered hplaced hnone hfrom hreads.pos_le
        htoken.pos_lt htoken.landed
        fun _ _ hle hcovers => readsAt_addExpr hcovers hle

/-- The receiver comes first and the key between the brackets. -/
theorem readsAt_index {receiver : ExprId}
    (hexpr : ReadsExpr tokens (grammar .expr))
    (hreceiver : before.HasRead tokens a [.expr receiver])
    (hvisible : before.cursor.kind.isVisible = true) :
    ReadsAt tokens (index grammar receiver) before fun id after =>
      after.HasRead tokens a [.expr id] := by
  refine ReadsAt.within ?_ _
  refine readsAt_look ?_
  refine (readsAt_opened hvisible hexpr.places).bind ?_
  rintro key middle hreads ⟨hlt, hkey⟩
  refine readsAt_look ?_
  split
  · next hcheck =>
      have hclose := isVisible_of_check rfl hcheck
      refine (readsAt_token hclose).bind fun last after hreads' hlast => ?_
      have hplaced := hreceiver.placed.grows (hreads.trans hreads').grows
      have hinner := (hkey.grows hreads'.grows).mono (Nat.le_succ _)
        (Nat.le_succ _)
      exact readsAt_receiver_bind hordered hplaced hinner hlast.from_
        (Nat.le_of_lt hlt) hlast.pos_lt hlast.landed
        fun _ _ hle hcovers => readsAt_addExpr hcovers hle
  · exact readsAt_fault _

end Postfix

section Operators

variable (hordered : OrderedTokens tokens)

include hordered

theorem readsAt_addUnary {op : UnaryOp} {start : Span} {operand : ExprId}
    (hstart : start.From tokens a a) (hlt : a < k)
    (hoperand : before.HasRead tokens k [.expr operand]) :
    ReadsAt tokens (addUnary op start operand) before fun id after =>
      after.HasRead tokens a [.expr id] :=
  readsAt_operand_bind hordered hstart hlt hoperand fun _ _ hcovers =>
    readsAt_addExpr hcovers (Nat.le_refl _)

/-- Two operands in order. -/
theorem readsAt_addJoined {join : ExprId → ExprId → ExprKind}
    {left right : ExprId}
    (hjoin : (join left right).refs = [.expr left, .expr right])
    (hleft : Placed tokens before.program a k [.expr left])
    (hright : before.HasRead tokens k [.expr right]) :
    ReadsAt tokens (addJoined join left right) before fun id after =>
      after.HasRead tokens a [.expr id] := by
  refine readsAt_spanOf_bind hleft ?_
  intro first i e hi he hfirst hexact
  refine readsAt_spanOf_bind hright.placed ?_
  intro second m l hm hl hsecond hexact'
  have hie := hfirst.le
  have hml := hsecond.le
  have hspan := hfirst.merge hordered hsecond (by omega) (by omega)
  have hboth : Placed tokens before.program i (l + 1)
      (join left right).refs := by
    rw [hjoin]
    exact hexact.append (hexact'.mono (by omega) (Nat.le_refl _))
  exact readsAt_addExpr ⟨hspan, hl, hboth, hright.landed⟩ hi

/-- A way to join two operands makes an expression of both, in order. -/
def Joiner.InOrder (joiner : Joiner) : Prop :=
  ∀ kind join, joiner kind = some join →
    ∀ left right, (join left right).refs = [.expr left, .expr right]

omit hordered in
theorem inOrder_binaryJoiner (operator? : TokenKind → Option BinaryOp) :
    Joiner.InOrder (binaryJoiner operator?) := by
  intro kind join hjoin left right
  obtain ⟨op, -, rfl⟩ := Option.map_eq_some_iff.mp hjoin
  rfl

omit hordered in
theorem inOrder_composeJoiner : Joiner.InOrder composeJoiner := by
  intro kind join hjoin left right
  unfold composeJoiner at hjoin
  split at hjoin
  · cases hjoin
    rfl
  · cases hjoin

/-- The operands so far are one expression, and the next operand stands behind
it. -/
theorem readsAt_chainFrom {joiner : Joiner} {operand : Parse ExprId}
    (hjoiner : Joiner.InOrder joiner) (hoperand : ReadsExpr tokens operand)
    {left : ExprId} (hleft : before.HasRead tokens a [.expr left])
    (rounds : Nat) :
    ReadsAt tokens (chainFrom joiner operand rounds left) before
      fun id after => after.HasRead tokens a [.expr id] := by
  induction rounds generalizing before left with
  | zero => exact readsAt_halt _
  | succ rounds ih =>
      refine readsAt_look ?_
      split
      · exact readsAt_pure hleft
      · next join hjoin =>
          refine readsAt_advance.bind fun _ middle hreads _ => ?_
          refine (hoperand middle).bind fun right after hreads' hright => ?_
          have hplaced := (hleft.placed.reads hreads).grows hreads'.grows
          refine (readsAt_addJoined hordered (hjoiner _ _ hjoin left right)
            hplaced hright).bind ?_
          intro joined final _ hjoined
          exact ih hjoined

theorem reads_chain {joiner : Joiner} {operand : Parse ExprId}
    (hjoiner : Joiner.InOrder joiner) (hoperand : ReadsExpr tokens operand) :
    ReadsExpr tokens (chain joiner operand) := by
  intro before
  refine (hoperand before).bind fun first middle _ hfirst => ?_
  exact readsAt_look (readsAt_chainFrom hordered hjoiner hoperand hfirst _)

end Operators

section Functions

variable (hordered : OrderedTokens tokens)
  (hgrammar : GrammarReads tokens grammar)

include hgrammar

theorem readsAt_default? (hlanded : before.cursor.Landed) :
    ReadsAt tokens (default? grammar) before fun value after =>
      after.HasRead tokens before.cursor.pos (value.toList.map .expr) := by
  refine (readsAt_eat rfl).bind fun found middle hreads heaten => ?_
  cases found with
  | true =>
      refine (hgrammar.expr middle).bind fun value after _ hvalue => ?_
      exact readsAt_pure (hvalue.mono hreads.pos_le)
  | false =>
      obtain rfl := heaten.2 rfl
      exact readsAt_pure ⟨.nil (Nat.le_refl _), hlanded⟩

include hordered

/-- A default stands behind the name of its parameter. -/
theorem reads_param :
    Reads tokens (fun row => [.part (.param row)]) (param grammar) := by
  intro before
  refine readsAt_look ?_
  refine (readsAt_eat rfl).bind fun rest middle hreads heaten => ?_
  refine readsAt_expectIdent.bind fun name after _ hname => ?_
  -- The first token is the one that is eaten, or else the name.
  have hstart : before.cursor.span.From tokens before.cursor.pos
      before.cursor.pos := by
    cases rest with
    | true => exact (heaten.1 rfl).from_
    | false => exact heaten.2 rfl ▸ hname.from_
  have hlt := Nat.lt_of_le_of_lt hreads.pos_le hname.pos_lt
  have hend : ∀ (value : Option ExprId) (final : ParserState),
      after.cursor.pos ≤ final.cursor.pos →
      final.HasRead tokens after.cursor.pos (value.toList.map .expr) →
      ReadsAt tokens (do
        return ⟨name, value, rest, before.cursor.span.merge (← previousSpan)⟩)
        final fun row last =>
          last.HasRead tokens before.cursor.pos [.part (.param row)] :=
    fun value final hle hvalue =>
      readsAt_previousSpan_bind hordered (hvalue.mono (Nat.le_of_lt hlt))
        hstart (Nat.lt_of_lt_of_le hlt hle) fun _ _ hcovers =>
          readsAt_pure (hcovers.node (Nat.le_refl _))
  dsimp only
  split
  · exact hend none after (Nat.le_refl _)
      ⟨.nil (Nat.le_refl _), hname.landed⟩
  · exact (readsAt_default? hgrammar hname.landed).bind
      fun value final hreads' hvalue => hend value final hreads'.pos_le hvalue

theorem places_paramsFrom (place : Span) (rounds : Nat) :
    Places tokens (fun rows => rows.map fun row => .part (.param row))
      (paramsFrom grammar place rounds) := by
  induction rounds with
  | zero => exact fun _ => readsAt_halt _
  | succ rounds ih =>
      intro before
      refine readsAt_look ?_
      split
      · exact readsAt_pure (.nil (Nat.le_refl _))
      · refine (reads_param hordered hgrammar before).bind ?_
        intro first middle _ hfirst
        refine readsAt_look ?_
        split
        · exact readsAt_fault _
        · refine (readsAt_eat rfl).bind fun found after hreads _ => ?_
          split
          · exact readsAt_fault _
          · refine (ih after).bind fun others final hreads' hothers => ?_
            have hplaced := hfirst.placed.reads hreads
            exact readsAt_pure ((hplaced.grows hreads'.grows).append hothers)

theorem reads_params :
    Reads tokens (fun rows => rows.map fun row => .part (.param row))
      (params grammar) := by
  intro before
  refine readsAt_look ?_
  refine (readsAt_expect rfl).bind fun _ middle hreads _ => ?_
  have hloop : Places tokens
      (fun rows => rows.map fun row => .part (.param row))
      (inRegion false do paramsFrom grammar before.cursor.span (← rounds)) :=
    (places_rounds_bind fun rounds =>
      places_paramsFrom hordered hgrammar _ rounds).inRegion
  refine (hloop middle).bind fun rows after _ hrows => ?_
  refine (readsAt_expect rfl).bind fun _ final hreads' hclose => ?_
  have hplaced := (hrows.reads hreads').mono hreads.pos_le (Nat.le_refl _)
  exact readsAt_pure ⟨hplaced, hclose.landed⟩

/-- A function begins at a token before its parameters. -/
theorem readsAt_functionRest {name : String} {start : Span}
    (hstart : start.From tokens k k) (hlt : k < before.cursor.pos) :
    ReadsAt tokens (functionRest grammar name start) before fun id after =>
      after.HasRead tokens k [.func id] := by
  refine ((reads_params hordered hgrammar before).within _).bind ?_
  intro rows middle _ hrows
  refine (hgrammar.block.inFunction middle).bind ?_
  intro body after hreads hbody
  refine (readsAt_add (Program.grows_addParams _ _)).bind ?_
  rintro _ final hreads' ⟨rfl, rfl⟩
  obtain ⟨i, e, hi, he, hspan, _, hexact⟩ := hbody.placed.exists_from
  have hparams := Placed.addParams (hrows.placed.grows hreads.grows)
  have hparts := (hparams.mono (Nat.le_refl _) hi).append
    (hexact.grows hreads'.grows)
  refine (readsAt_add (Program.grows_addFunc _ _)).mono ?_
  rintro _ _ ⟨rfl, rfl⟩
  have hie := hspan.le
  have hle := hrows.placed.le
  have hwhole := hstart.merge hordered hspan (by omega) (by omega)
  have hplaced := hparts.mono (Nat.le_of_lt hlt) (Nat.le_refl _)
  exact ⟨.addFunc (Nat.le_refl k) he hwhole hplaced, hbody.landed⟩

theorem readsAt_functionExpr (hvisible : before.cursor.kind.isVisible = true) :
    ReadsAt tokens (functionExpr grammar) before fun id after =>
      after.HasRead tokens before.cursor.pos [.expr id] := by
  refine ReadsAt.within ?_ _
  refine (readsAt_token hvisible).bind fun token middle _ htoken => ?_
  refine (readsAt_functionRest hordered hgrammar htoken.from_
    htoken.pos_lt).bind fun id after hreads hfunc => ?_
  have hlt := Nat.lt_of_lt_of_le htoken.pos_lt hreads.pos_le
  exact readsAt_previousSpan_bind hordered hfunc htoken.from_ hlt
    fun _ _ hcovers => readsAt_addExpr hcovers (Nat.le_refl _)

end Functions

theorem refs_of_simple? {kind : TokenKind} {simple : ExprKind}
    (hsimple : simple? kind = some simple) : simple.refs = [] := by
  unfold simple? at hsimple
  split at hsimple <;> cases hsimple <;> rfl

section Rules

variable (hordered : OrderedTokens tokens)

include hordered

theorem readsAt_badge (hvisible : before.cursor.kind.isVisible = true) :
    ReadsAt tokens badge before fun id after =>
      after.HasRead tokens before.cursor.pos [.expr id] := by
  refine (readsAt_token hvisible).bind fun mark middle _ hmark => ?_
  refine readsAt_look ?_
  split
  · exact readsAt_fault _
  · next key hkey =>
      rw [Cursor.kind_current] at hkey
      have hvisible' := isVisible_of_some rfl rfl hkey
      refine readsAt_current hvisible' fun hfrom => ?_
      refine (readsAt_token hvisible').bind fun _ after _ htoken => ?_
      have hle := Nat.le_of_lt hmark.pos_lt
      have hspan := hmark.from_.merge hordered hfrom hle hle
      exact readsAt_addExpr ⟨hspan, htoken.pos_lt,
        .nil (Nat.le_succ_of_le hle), htoken.landed⟩ (Nat.le_refl _)

variable (hgrammar : GrammarReads tokens grammar)

include hgrammar

/-- An atom is a single token, or begins with the one that its form is told by.
-/
theorem reads_atom : ReadsExpr tokens (atom grammar) := by
  intro before
  refine readsAt_look ?_
  split
  · next hkind =>
      exact readsAt_badge hordered (isVisible_of_eq hkind rfl)
  · next hkind =>
      exact readsAt_arrayLiteral hordered hgrammar (isVisible_of_eq hkind rfl)
  · next hkind =>
      exact readsAt_parenthesised hordered hgrammar (isVisible_of_eq hkind rfl)
  · next hkind =>
      exact readsAt_functionExpr hordered hgrammar (isVisible_of_eq hkind rfl)
  · split
    · exact readsAt_fault _
    · next simple hsimple =>
        have hvisible := isVisible_of_some rfl rfl hsimple
        refine (readsAt_token hvisible).bind fun token after _ htoken => ?_
        have hnone := refs_of_simple? hsimple
        exact readsAt_addExpr ⟨htoken.from_, htoken.pos_lt,
          hnone ▸ .nil (Nat.le_succ _), htoken.landed⟩ (Nat.le_refl _)

/-- What the suffixes so far are of comes before the next one. -/
theorem readsAt_postfixFrom {expr : ExprId}
    (hexpr : before.HasRead tokens a [.expr expr]) (rounds : Nat) :
    ReadsAt tokens (postfixFrom grammar rounds expr) before fun id after =>
      after.HasRead tokens a [.expr id] := by
  induction rounds generalizing before expr with
  | zero => exact readsAt_halt _
  | succ rounds ih =>
      refine readsAt_look ?_
      split
      · next hkind =>
          have hvisible := isVisible_of_eq hkind rfl
          exact (readsAt_call hordered hgrammar hexpr hvisible).bind
            fun _ _ _ hread => ih hread
      · exact (readsAt_member hordered hexpr).bind fun _ _ _ hread => ih hread
      · next hkind =>
          have hvisible := isVisible_of_eq hkind rfl
          exact (readsAt_index hordered hgrammar.expr hexpr hvisible).bind
            fun _ _ _ hread => ih hread
      · exact readsAt_pure hexpr

theorem reads_postfixExpr : ReadsExpr tokens (postfixExpr grammar) := by
  intro before
  refine (reads_atom hordered hgrammar before).bind ?_
  intro first middle _ hfirst
  exact readsAt_look (readsAt_postfixFrom hordered hgrammar hfirst _)

theorem reads_signExpr : ReadsExpr tokens (signExpr grammar) := by
  intro before
  refine readsAt_look ?_
  split
  · exact reads_postfixExpr hordered hgrammar before
  · next op hop =>
      have hvisible := isVisible_of_some rfl rfl hop
      refine (readsAt_token hvisible).bind fun sign middle _ hsign => ?_
      refine (hgrammar.signExpr middle).bind fun operand after _ hoperand => ?_
      exact readsAt_addUnary hordered hsign.from_ hsign.pos_lt hoperand

theorem reads_composeExpr : ReadsExpr tokens (composeExpr grammar) :=
  reads_chain hordered inOrder_composeJoiner
    (reads_chain hordered (inOrder_binaryJoiner sum?)
      (reads_chain hordered (inOrder_binaryJoiner product?)
        (reads_signExpr hordered hgrammar)))

theorem reads_relationExpr : ReadsExpr tokens (relationExpr grammar) := by
  intro before
  refine (reads_composeExpr hordered hgrammar before).bind ?_
  intro left middle _ hleft
  refine readsAt_look ?_
  split
  · exact readsAt_pure hleft
  · refine readsAt_advance.bind fun _ behind hreads _ => ?_
    refine (reads_composeExpr hordered hgrammar behind).bind ?_
    intro right after hreads' hright
    refine readsAt_look ?_
    split
    · exact readsAt_fault _
    · have hplaced := (hleft.placed.reads hreads).grows hreads'.grows
      exact readsAt_addJoined hordered rfl hplaced hright

theorem reads_notExpr : ReadsExpr tokens (notExpr grammar) := by
  intro before
  refine readsAt_look ?_
  split
  · next hcheck =>
      have hvisible := isVisible_of_check rfl hcheck
      refine (readsAt_token hvisible).bind fun word middle _ hword => ?_
      refine (hgrammar.notExpr middle).bind fun operand after _ hoperand => ?_
      exact readsAt_addUnary hordered hword.from_ hword.pos_lt hoperand
  · exact reads_relationExpr hordered hgrammar before

theorem reads_orExpr : ReadsExpr tokens (orExpr grammar) :=
  reads_chain hordered (inOrder_binaryJoiner _)
    (reads_chain hordered (inOrder_binaryJoiner _)
      (reads_notExpr hordered hgrammar))

/-- The target of an assignment has no row in it: the assignment begins where
the target does. -/
theorem reads_assignExpr : ReadsExpr tokens (assignExpr grammar) := by
  intro before
  refine (reads_orExpr hordered hgrammar before).bind ?_
  intro left middle _ hleft
  refine readsAt_look ?_
  split
  · refine readsAt_expr_bind hleft.placed ?_
    intro target i j hi hj htarget hexact
    split
    · exact readsAt_faultAt _ _
    · refine readsAt_advance.bind fun _ behind hreads _ => ?_
      refine (hgrammar.expr behind).bind fun value after _ hvalue => ?_
      have hlt := Nat.lt_of_lt_of_le hj hreads.pos_le
      exact readsAt_operand_bind hordered htarget hlt hvalue
        fun _ _ hcovers => readsAt_addExpr hcovers hi
  · exact readsAt_pure hleft

end Rules

end Parse

end ChainScript
