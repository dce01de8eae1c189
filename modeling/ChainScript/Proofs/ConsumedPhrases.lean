import ChainScript.Proofs.Levels
import ChainScript.Proofs.RespacedExpressions
import ChainScript.Proofs.SeenTokens

/-
Whatever a parser consumes is a phrase of the lenient dialect.

Each rule of the parser that answers has gone over the kinds of a phrase.  Of an
expression it also matters whether an assignment may take it for its target,
since the parser reads the target as an expression first and looks at its form
afterwards.
-/

namespace ChainScript

open Step Parse

namespace Precedence

theorem rule_of_chains (grammar : Grammar) {level : Precedence}
    (hchains : level.chains = true) :
    level.rule grammar = chain level.joiner (level.tighter.rule grammar) := by
  cases level <;> first | rfl | cases hchains

/-- The operators of a chain are those that the parser joins with. -/
theorem mem_operators_iff {level : Precedence} (hchains : level.chains = true)
    (kind : TokenKind) :
    kind ∈ level.operators ↔ (level.joiner kind).isSome = true := by
  cases level with
  | or | and | compose | sum | product =>
      cases kind with
      | mark symbol => cases symbol <;> decide
      | keyword word => cases word <;> decide
      | _ =>
          simp [operators, joiner, binaryJoiner, composeJoiner, logical?, sum?,
            product?]
  | _ => cases hchains

theorem mem_relation_operators_iff (kind : TokenKind) :
    kind ∈ relation.operators ↔ (comparison? kind).isSome = true := by
  cases kind with
  | mark symbol => cases symbol <;> decide
  | _ => simp [operators, comparison?]

theorem joint?_of_mem_operators {level : Precedence} {kind : TokenKind}
    (hmem : kind ∈ level.operators) : kind.joint? = some level := by
  cases level <;>
    simp only [operators, List.mem_cons, List.not_mem_nil, or_false] at hmem <;>
    rcases hmem with rfl | rfl | rfl | rfl | rfl | rfl <;> rfl

theorem isPlain_of_mem_operators {level : Precedence} {kind : TokenKind}
    (hmem : kind ∈ level.operators) :
    kind.isPlain = true ∧ kind ≠ .eof := by
  cases level <;>
    simp only [operators, List.mem_cons, List.not_mem_nil, or_false] at hmem <;>
    rcases hmem with rfl | rfl | rfl | rfl | rfl | rfl <;> exact ⟨rfl, nofun⟩

end Precedence

theorem isKey_of_keyOf? {kind : TokenKind} {key : Key}
    (hkey : keyOf? kind = some key) : kind.isKey = true := by
  unfold keyOf? at hkey
  split at hkey <;> first | rfl | cases hkey

theorem TokenKind.isPlain_of_isKey {kind : TokenKind}
    (hkey : kind.isKey = true) : kind.isPlain = true ∧ kind ≠ .eof := by
  cases kind with
  | int | str | ident => exact ⟨rfl, nofun⟩
  | _ => cases hkey

/-- A token that spells an expression by itself. -/
theorem derives_simple (dialect : Dialect) {kind : TokenKind} {form : ExprKind}
    (hsimple : simple? kind = some form) :
    Derives dialect .atom [kind] ∧
      ((target? form).isSome = true → Target dialect [kind]) := by
  unfold simple? at hsimple
  split at hsimple
  case h_7 name =>
    exact ⟨.name name, fun _ => .ident name⟩
  case h_8 => cases hsimple
  all_goals
    cases hsimple
    exact ⟨.literal _ rfl, nofun⟩

namespace Parse

/-- Between the two places stands a phrase. -/
def Consumed (phrase : Phrase) (before after : List TokenKind) : Prop :=
  ∃ kinds, before = kinds ++ after ∧ Derives .lenient phrase kinds

/-- The expression is the target of an assignment only if the tokens are. -/
def TargetsOnly (kinds : List TokenKind) (program : Program) (id : ExprId) :
    Prop :=
  program.ExprIs id fun form =>
    (target? form).isSome = true → Target .lenient kinds

/-- Between the two places stands an expression. -/
def ConsumedExpr (phrase : Phrase) (before : List TokenKind)
    (program : Program) (id : ExprId) (after : List TokenKind) : Prop :=
  ∃ kinds, before = kinds ++ after ∧ Derives .lenient phrase kinds ∧
    TargetsOnly kinds program id

theorem TargetsOnly.grows {kinds : List TokenKind} {older newer : Program}
    {id : ExprId} (htargets : TargetsOnly kinds older id)
    (hgrows : older.Grows newer) : TargetsOnly kinds newer id :=
  Program.ExprIs.grows hgrows htargets fun _ himp => himp

theorem TargetsOnly.hasExpr {kinds : List TokenKind} {program : Program}
    {id : ExprId} (htargets : TargetsOnly kinds program id) :
    program.HasExpr id :=
  Program.ExprIs.hasExpr htargets

theorem ConsumedExpr.grows {phrase : Phrase} {older newer : Program}
    {id : ExprId} {before after : List TokenKind}
    (hconsumed : ConsumedExpr phrase before older id after)
    (hgrows : older.Grows newer) :
    ConsumedExpr phrase before newer id after := by
  obtain ⟨kinds, hbefore, hderives, htargets⟩ := hconsumed
  exact ⟨kinds, hbefore, hderives, htargets.grows hgrows⟩

theorem TargetsOnly.mono {kinds others : List TokenKind} {program : Program}
    {id : ExprId} (htargets : TargetsOnly kinds program id)
    (himp : Target .lenient kinds → Target .lenient others) :
    TargetsOnly others program id := by
  obtain ⟨row, hrow, htarget⟩ := htargets
  exact ⟨row, hrow, himp ∘ htarget⟩

/-- No assignment takes an expression of another form for its target. -/
theorem targetsOnly_of_form {form : ExprKind} {program : Program} {id : ExprId}
    (kinds : List TokenKind) (hform : target? form = none)
    (hexpr : program.ExprIs id (· = form)) : TargetsOnly kinds program id := by
  obtain ⟨row, hrow, hkind⟩ := hexpr
  refine ⟨row, hrow, fun htarget => ?_⟩
  rw [hkind, hform] at htarget
  cases htarget

end Parse

/-- The rules of the grammar consume phrases. -/
structure Grammar.Consumes (grammar : Grammar) : Prop where
  expr : ∀ around base before, Runs false around base (grammar .expr) before
    (ConsumedExpr (.expr .assign) before)
  notExpr : ∀ around base before,
    Runs false around base (grammar .notExpr) before
      (ConsumedExpr (.expr .not) before)
  signExpr : ∀ around base before,
    Runs false around base (grammar .signExpr) before
      (ConsumedExpr (.expr .sign) before)
  block : ∀ around base before, Runs false around base (grammar .block) before
    fun _ _ after => Consumed (.block around.inLoop) before after
  branch : ∀ around base (word : Keyword) before,
    Runs false around base (grammar .branch) (.keyword word :: before)
      fun _ _ after => ∃ condition body others,
        before = condition ++ body ++ others ++ after ∧
        Derives .lenient (.expr .assign) condition ∧
        Derives .lenient (.block around.inLoop) body ∧
        Derives .lenient (.branches around.inLoop) others

namespace Parse

section Chains

variable {around : Surroundings} {base : Program} {level : Precedence}
  {operand : Parse ExprId}

/-- No assignment takes two joined operands for its target. -/
theorem target?_of_joiner {kind : TokenKind} {left right : ExprId}
    {join : ExprId → ExprId → ExprKind} (hjoin : level.joiner kind = some join) :
    target? (join left right) = none := by
  cases level with
  | or | and | sum | product =>
      obtain ⟨op, -, rfl⟩ := Option.map_eq_some_iff.mp hjoin
      rfl
  | compose =>
      simp only [Precedence.joiner, composeJoiner] at hjoin
      split at hjoin <;> cases hjoin
      rfl
  | assign | not | relation | sign | suffix => cases hjoin

/-- Further operands: what is there if nothing was read before may be a
target. -/
theorem consumes_chainFrom
    (hoperand : ∀ base before, Runs false around base operand before
      (ConsumedExpr (.expr level.tighter) before))
    (hchains : level.chains = true) (rounds : Nat) {left : ExprId}
    {kinds before : List TokenKind} (hleft : TargetsOnly kinds base left) :
    Runs false around base (chainFrom level.joiner operand rounds left) before
      fun program id after => ∃ others, before = others ++ after ∧
        Derives .lenient (.operands level) others ∧
        TargetsOnly (kinds ++ others) program id := by
  induction rounds generalizing base left kinds before with
  | zero => exact runs_exhausted
  | succ rounds ih =>
      apply Runs.kind
      cases hjoin : level.joiner (firstOf before) with
      | none =>
          refine runs_pure fun _ hgrows => ⟨[], rfl, .noOperand, ?_⟩
          rw [List.append_nil]
          exact hleft.grows hgrows
      | some join =>
          have hop := (Precedence.mem_operators_iff hchains _).mpr
            (by rw [hjoin]; rfl)
          obtain ⟨hplain, heof⟩ := Precedence.isPlain_of_mem_operators hop
          obtain ⟨kind, more, rfl⟩ := exists_cons_of_firstOf heof
          refine .step hplain heof fun _ _ => (hoperand base more).bind ?_
          rintro program right middle hgrows
            ⟨first, rfl, hfirst, hright⟩
          refine (runs_addJoined (hleft.grows hgrows).hasExpr hright.hasExpr).bind ?_
          rintro newer joined _ hmore ⟨rfl, hjoined⟩
          refine (ih (targetsOnly_of_form (kinds ++ kind :: first)
            (target?_of_joiner hjoin) hjoined)).mono ?_
          rintro last id after - ⟨others, rfl, hothers, htargets⟩
          refine ⟨kind :: (first ++ others), by simp,
            .operand _ hop hfirst hothers, ?_⟩
          simpa using htargets

theorem consumes_chain (level : Precedence) {before : List TokenKind}
    (hoperand : ∀ base before, Runs false around base operand before
      (ConsumedExpr (.expr level.tighter) before))
    (hchains : level.chains = true) :
    Runs false around base (chain level.joiner operand) before
      (ConsumedExpr (.expr level) before) := by
  refine (hoperand base before).bind ?_
  rintro program first middle hgrows ⟨kinds, rfl, hkinds, htargets⟩
  refine .look fun cursor _ => ?_
  refine (consumes_chainFrom hoperand hchains _ htargets).mono ?_
  rintro last id after - ⟨others, rfl, hothers, hlast⟩
  exact ⟨kinds ++ others, by simp, .chain hchains hkinds hothers, hlast⟩

end Chains

section Expressions

variable {grammar : Grammar} (hgrammar : grammar.Consumes)
  {around : Surroundings} {base : Program} {before : List TokenKind}

include hgrammar

/-- What an entry that is no more than an expression leaves to a group. -/
def ItemTargets (kinds : List TokenKind) (program : Program)
    (entry : Entry) : Prop :=
  ∀ inner span, entry = ⟨.item inner, span⟩ → TargetsOnly kinds program inner

theorem consumes_entry :
    Runs false around base (entry grammar) before fun program entry after =>
      ∃ kinds, before = kinds ++ after ∧ Derives .lenient .entry kinds ∧
        ItemTargets kinds program entry := by
  have hitem : Runs false around base
      (do
        let value ← grammar .expr
        return (⟨.item value, ← spanOf value⟩ : Entry)) before
      fun program entry after =>
        ∃ kinds, before = kinds ++ after ∧ Derives .lenient .entry kinds ∧
          ItemTargets kinds program entry := by
    refine (hgrammar.expr _ _ _).bind ?_
    rintro program value after - ⟨kinds, rfl, hvalue, htargets⟩
    refine .spanOf htargets.hasExpr fun span => runs_pure fun _ hgrows =>
      ⟨kinds, rfl, .item hvalue, ?_⟩
    rintro inner place ⟨⟩
    exact htargets.grows hgrows
  refine .look fun _ _ => .eat rfl rfl nofun ?_ fun _ => ?_
  · rintro more rfl
    refine .expectIdent nofun ?_
    rintro name more rfl
    exact .look fun _ _ => runs_pure fun _ _ =>
      ⟨[.mark .ellipsis, .ident name], rfl, .expand name, nofun⟩
  · refine .kind (.look fun cursor hsees => ?_)
    split
    · next key hkey hcolon =>
      have hiskey := isKey_of_keyOf? hkey
      obtain ⟨hplain, heof⟩ := TokenKind.isPlain_of_isKey hiskey
      obtain ⟨kind, more, rfl⟩ := exists_cons_of_firstOf heof
      rw [hsees.peek_one hplain heof] at hcolon
      obtain ⟨more, rfl⟩ := eq_cons_of_firstOf hcolon nofun
      refine .step hplain heof fun _ _ => .step rfl nofun fun _ _ => ?_
      refine (hgrammar.expr _ _ _).bind ?_
      rintro program value after - ⟨kinds, rfl, hvalue, htargets⟩
      exact .spanOf htargets.hasExpr fun span => runs_pure fun _ _ =>
        ⟨_ :: .mark .colon :: kinds, rfl, .keyed _ hiskey hvalue, nofun⟩
    · exact hitem

/-- A list ends in front of its close.  The flag that is given comes back if
there are no more entries. -/
theorem consumes_entriesFrom (opener : TokenKind) (place : Span) (close : Mark)
    (rounds : Nat) (comma : Bool) :
    Runs false around base
      (entriesFrom grammar opener place (.mark close) rounds comma) before
      fun program result after => ∃ kinds, before = kinds ++ after ∧
        Derives .lenient .entries kinds ∧
        (firstOf before = .mark close → kinds = []) ∧
        (result.1 = [] → result.2 = comma) ∧
        (result.2 = false → ∀ entry, result.1 = [entry] →
          ItemTargets kinds program entry) := by
  induction rounds generalizing base before comma with
  | zero => exact runs_exhausted
  | succ rounds ih =>
      apply Runs.check
      split
      · exact runs_pure fun _ _ =>
          ⟨[], rfl, .noEntry, fun _ => rfl, fun _ => rfl, nofun⟩
      · next hopen =>
        rw [TokenKind.sameVariant_mark_iff] at hopen
        refine (consumes_entry hgrammar).bind ?_
        rintro program entry after - ⟨kinds, rfl, hentry, htargets⟩
        refine .eat rfl rfl nofun ?_ fun _ => ?_
        · rintro more rfl
          refine (ih true).bind ?_
          rintro last ⟨others, comma⟩ after hgrows
            ⟨rest, rfl, hothers, -, hlast, -⟩
          refine runs_pure fun _ _ => ⟨kinds ++ .mark .comma :: rest, by simp,
            .nextEntry hentry hothers, fun hclose => absurd hclose hopen,
            nofun, fun hcomma single hsingle => ?_⟩
          -- A comma has been read after the only entry.
          obtain ⟨-, rfl⟩ := List.cons.inj hsingle
          exact nomatch (hlast rfl).symm.trans hcomma
        · refine .check ?_
          by_cases hclose : firstOf after = .mark close
          · have hsame := (TokenKind.sameVariant_mark_iff _ _).mpr hclose
            rw [hsame]
            refine (ih false).bind ?_
            rintro last ⟨others, comma⟩ after hgrows
              ⟨rest, rfl, -, hnone, -, -⟩
            obtain rfl := hnone hclose
            refine runs_pure fun newer hmore => ⟨kinds, rfl, .lastEntry hentry,
              fun hfirst => absurd hfirst hopen, nofun,
              fun _ single hsingle inner span hinner => ?_⟩
            obtain ⟨rfl, -⟩ := List.cons.inj hsingle
            exact (htargets inner span hinner).grows (hgrows.trans hmore)
          · simp only [TokenKind.sameVariant_mark hclose, Bool.not_false,
              Bool.and_self, if_true]
            exact runs_fault rfl

omit hgrammar in
theorem delimited_eq (opener close : TokenKind) :
    delimited grammar opener close = (do
      let place ← span
      let found ← inRegion false do
        let _ ← advance
        entriesFrom grammar opener place close (← rounds) false
      let last ← expect close
      return (found.1, found.2, place.merge last.span)) :=
  rfl

/-- A list of entries and its delimiters. -/
theorem consumes_delimited {mark close : Mark}
    (hopens : ∀ opened, openAfter opened (.mark mark) = mark :: opened)
    (hcloses : ∀ opened, openAfter (mark :: opened) (.mark close) = opened)
    (hbracket : mark.isBracket = true) {inside : List TokenKind} :
    Runs false around base (delimited grammar (.mark mark) (.mark close))
      (.mark mark :: inside) fun program result after =>
        ∃ kinds, inside = kinds ++ .mark close :: after ∧
          Derives .lenient .entries kinds ∧
          (result.2.1 = false → ∀ entry, result.1 = [entry] →
            ItemTargets kinds program entry) := by
  rw [delimited_eq]
  refine .look fun _ _ => ?_
  refine .region (hopens _) (hcloses _) (by rw [hbracket]; rfl)
    (closes_expect close)
    (.look fun _ _ => consumes_entriesFrom hgrammar _ _ close _ false) nofun ?_
  rintro program ⟨entries, comma⟩ after token hgrows
    ⟨kinds, rfl, hentries, -, -, htargets⟩
  exact runs_pure fun newer hmore => ⟨kinds, rfl, hentries,
    fun hcomma entry hentry inner span hinner =>
      (htargets hcomma entry hentry inner span hinner).grows hmore⟩

omit hgrammar in
/-- A row that is added last, of a form that is no target. -/
theorem consumes_addExpr {form : ExprKind} {span : Span} {phrase : Phrase}
    {kinds after : List TokenKind} (hkinds : Derives .lenient phrase kinds)
    (hform : target? form = none) (hbefore : before = kinds ++ after) :
    Runs false around base (addExpr form span) after
      (ConsumedExpr phrase before) :=
  runs_addExpr fun _ _ _ hexpr =>
    ⟨kinds, hbefore, hkinds, targetsOnly_of_form kinds hform hexpr⟩

theorem consumes_arrayLiteral :
    Runs false around base (arrayLiteral grammar)
      (.mark .openBracket :: before)
      (ConsumedExpr .atom (.mark .openBracket :: before)) := by
  refine .within _ ((consumes_delimited hgrammar (fun _ => rfl)
    (fun _ => rfl) rfl).bind ?_)
  rintro program ⟨entries, comma, span⟩ after hgrows ⟨kinds, rfl, hkinds, -⟩
  exact .add (fun _ => Program.grows_addEntries _ _) fun _ _ _ =>
    consumes_addExpr (.array hkinds) rfl (by simp)

/-- A group can be a target if the expression in it can. -/
theorem consumes_parenthesised :
    Runs false around base (parenthesised grammar)
      (.mark .openParen :: before)
      (ConsumedExpr .atom (.mark .openParen :: before)) := by
  refine ((consumes_delimited hgrammar (fun _ => rfl) (fun _ => rfl)
    rfl).within _).bind ?_
  rintro program ⟨entries, comma, span⟩ after hgrows
    ⟨kinds, rfl, hkinds, htargets⟩
  dsimp only
  split
  · next inner place =>
    refine runs_pure fun newer hmore => ⟨_, by simp, .args hkinds, ?_⟩
    exact (((htargets rfl _ rfl) inner place rfl).grows hmore).mono
      fun htarget => .wrapped kinds rfl htarget
  · exact .add (fun _ => Program.grows_addEntries _ _) fun _ _ _ =>
      consumes_addExpr (.args hkinds) rfl (by simp)

omit hgrammar in
theorem consumes_badge :
    Runs false around base badge (.mark .badge :: before)
      (ConsumedExpr .atom (.mark .badge :: before)) := by
  refine .step rfl nofun fun _ _ => .look fun cursor hsees => ?_
  have hkind := hsees.kind_current_eq
  split
  · exact runs_fault rfl
  · next key hkey =>
    rw [hkind] at hkey
    have hiskey := isKey_of_keyOf? hkey
    obtain ⟨hplain, heof⟩ := TokenKind.isPlain_of_isKey hiskey
    obtain ⟨kind, more, rfl⟩ := exists_cons_of_firstOf heof
    exact .step hplain heof fun _ _ => runs_addExpr fun _ _ _ ⟨row, hrow, _⟩ =>
      ⟨[.mark .badge, kind], rfl, .badge kind hiskey, row, hrow,
        fun _ => .badge kind hiskey⟩

theorem consumes_default? :
    Runs false around base (default? grammar) before fun _ _ after =>
      before = after ∨ ∃ value, before = .mark .assign :: (value ++ after) ∧
        Derives .lenient (.expr .assign) value := by
  refine .eat rfl rfl nofun ?_ fun _ => runs_pure fun _ _ => .inl rfl
  rintro more rfl
  refine (hgrammar.expr _ _ _).bind ?_
  rintro program value after - ⟨kinds, rfl, hvalue, -⟩
  exact runs_pure fun _ _ => .inr ⟨kinds, rfl, hvalue⟩

/-- Between the two places stands a parameter of the sort. -/
def ConsumedParam (param : Param) (before after : List TokenKind) : Prop :=
  if param.rest then ∃ name, before = .mark .ellipsis :: .ident name :: after
  else Consumed .param before after

omit hgrammar in
theorem ConsumedParam.params {param : Param} {after : List TokenKind}
    (hparam : ConsumedParam param before after) :
    Consumed .params before after := by
  unfold ConsumedParam at hparam
  split at hparam
  · obtain ⟨name, rfl⟩ := hparam
    exact ⟨[.mark .ellipsis, .ident name], rfl, .rest name⟩
  · obtain ⟨kinds, rfl, hkinds⟩ := hparam
    exact ⟨kinds, rfl, .lastParam hkinds⟩

/-- Between the two places stand parameters, and none in front of the close. -/
def ConsumedParams (before after : List TokenKind) : Prop :=
  ∃ kinds, before = kinds ++ after ∧ Derives .lenient .params kinds ∧
    (firstOf before = .mark .closeParen → kinds = [])

theorem consumes_param :
    Runs false around base (param grammar) before fun _ param after =>
      ConsumedParam param before after := by
  refine .look fun _ _ => .eat rfl rfl nofun ?_ fun _ => ?_
  · rintro more rfl
    refine .expectIdent nofun ?_
    rintro name more rfl
    simp only [if_true, Step.pure_bind]
    exact .look fun _ _ => runs_pure fun _ _ => ⟨name, rfl⟩
  · refine .expectIdent nofun ?_
    rintro name more rfl
    refine (consumes_default? hgrammar).bind ?_
    rintro program default after - (rfl | ⟨value, rfl, hvalue⟩)
    · exact .look fun _ _ => runs_pure fun _ _ => ⟨_, rfl, .required name⟩
    · exact .look fun _ _ => runs_pure fun _ _ =>
        ⟨.ident name :: .mark .assign :: value, rfl, .optional name hvalue⟩

omit hgrammar in
/-- Without a comma the close comes next, and no more parameters. -/
theorem consumes_lastParam {place : Span} {rounds : Nat} {param : Param}
    {after : List TokenKind}
    (hothers : Runs false around base (paramsFrom grammar place rounds) after
      fun _ _ rest => ConsumedParams after rest)
    (hparam : ConsumedParam param before after)
    (hopen : firstOf before ≠ .mark .closeParen)
    (hclose : firstOf after = .mark .closeParen) :
    Runs false around base
      (do return param :: (← paramsFrom grammar place rounds)) after
      fun _ _ rest => ConsumedParams before rest := by
  obtain ⟨kinds, rfl, hkinds⟩ := hparam.params
  refine hothers.bind ?_
  rintro last others final - ⟨rest, rfl, -, hnone⟩
  obtain rfl := hnone hclose
  exact runs_pure fun _ _ =>
    ⟨kinds, rfl, hkinds, fun hfirst => absurd hfirst hopen⟩

theorem consumes_paramsFrom (place : Span) (rounds : Nat) :
    Runs false around base (paramsFrom grammar place rounds) before
      fun _ _ after => ConsumedParams before after := by
  induction rounds generalizing base before with
  | zero => exact runs_exhausted
  | succ rounds ih =>
      apply Runs.check
      split
      · exact runs_pure fun _ _ => ⟨[], rfl, .noParam, fun _ => rfl⟩
      · next hopen =>
        rw [TokenKind.sameVariant_mark_iff] at hopen
        refine (consumes_param hgrammar).bind ?_
        intro program param after hgrows hparam
        refine .check ?_
        by_cases hclose : firstOf after = .mark .closeParen
        · have hcomma : firstOf after ≠ .mark .comma := by
            rw [hclose]
            nofun
          simp only [(TokenKind.sameVariant_mark_iff _ _).mpr hclose,
            Bool.not_true, Bool.and_false, Bool.false_eq_true, if_false]
          refine .eat rfl rfl nofun (fun more hmore => ?_) fun _ => ?_
          · exact absurd (by rw [hmore]; rfl) hcomma
          · exact consumes_lastParam ih hparam hopen hclose
        · simp only [TokenKind.sameVariant_mark hclose, Bool.not_false,
            Bool.and_true]
          cases hrest : param.rest with
          | true => exact runs_fault rfl
          | false =>
              rw [ConsumedParam, hrest] at hparam
              obtain ⟨kinds, rfl, hkinds⟩ := hparam
              simp only [Bool.false_eq_true, if_false]
              refine .eat rfl rfl nofun ?_ fun _ => ?_
              · rintro more rfl
                refine ih.bind ?_
                rintro last others final - ⟨rest, rfl, hrest, -⟩
                exact runs_pure fun _ _ => ⟨kinds ++ .mark .comma :: rest,
                  by simp, .nextParam hkinds hrest fun _ => rfl,
                  fun hfirst => absurd hfirst hopen⟩
              · simp only [Bool.not_false, if_true]
                exact runs_fault rfl

theorem consumes_params :
    Runs false around base (params grammar) before fun _ _ after =>
      ∃ kinds, before =
          .mark .openParen :: (kinds ++ .mark .closeParen :: after) ∧
        Derives .lenient .params kinds := by
  refine .look fun _ _ => .openRegion nofun ?_
  rintro inside rfl
  refine .region rfl rfl rfl (closes_expect .closeParen)
    (.look fun _ _ => consumes_paramsFrom hgrammar _ _) nofun ?_
  rintro program params after _ hgrows ⟨kinds, rfl, hkinds, -⟩
  exact runs_pure fun _ _ => ⟨kinds, rfl, hkinds⟩

theorem consumes_functionRest (name : String) (start : Span) :
    Runs false around base (functionRest grammar name start) before
      fun _ _ after => ∃ params body, before = .mark .openParen ::
          (params ++ .mark .closeParen :: (body ++ after)) ∧
        Derives .lenient .params params ∧
        Derives .lenient (.block false) body := by
  refine ((consumes_params hgrammar).within _).bind ?_
  rintro program params after - ⟨kinds, rfl, hkinds⟩
  refine (hgrammar.block _ _ _).inFunction.bind ?_
  rintro newer block last - ⟨body, rfl, hbody⟩
  exact .add (fun _ => Program.grows_addParams _ _) fun _ _ _ =>
    runs_add (fun _ => Program.grows_addFunc _ _) fun _ _ _ =>
      ⟨kinds, body, rfl, hkinds, hbody⟩

theorem consumes_functionExpr :
    Runs false around base (functionExpr grammar) (.keyword .funcKw :: before)
      (ConsumedExpr .atom (.keyword .funcKw :: before)) := by
  refine .within _ (.step rfl nofun fun _ _ => ?_)
  refine (consumes_functionRest hgrammar _ _).bind ?_
  rintro program definition after - ⟨params, body, rfl, hparams, hbody⟩
  exact .look fun _ _ => consumes_addExpr (.func hparams hbody) rfl (by simp)

theorem consumes_atom :
    Runs false around base (atom grammar) before (ConsumedExpr .atom before) := by
  apply Runs.kind
  split
  · next hkind =>
    obtain ⟨more, rfl⟩ := eq_cons_of_firstOf hkind nofun
    exact consumes_badge
  · next hkind =>
    obtain ⟨more, rfl⟩ := eq_cons_of_firstOf hkind nofun
    exact consumes_arrayLiteral hgrammar
  · next hkind =>
    obtain ⟨more, rfl⟩ := eq_cons_of_firstOf hkind nofun
    exact consumes_parenthesised hgrammar
  · next hkind =>
    obtain ⟨more, rfl⟩ := eq_cons_of_firstOf hkind nofun
    exact consumes_functionExpr hgrammar
  · split
    · exact runs_fault rfl
    · next form hform =>
      have hplain := readsPlain_simple? _ _ hform
      have heof : firstOf before ≠ .eof := by
        intro heof
        rw [heof] at hform
        cases hform
      obtain ⟨kind, more, rfl⟩ := exists_cons_of_firstOf heof
      obtain ⟨hkinds, htarget⟩ := derives_simple .lenient hform
      exact .step hplain heof fun _ _ => runs_addExpr
        fun _ _ _ ⟨row, hrow, hkind⟩ => ⟨[kind], rfl, hkinds, row, hrow,
          fun hsome => htarget (hkind ▸ hsome)⟩

omit hgrammar in
theorem index_eq (receiver : ExprId) :
    index grammar receiver = within .indexExpression (do
      let place ← span
      let key ← inRegion false do
        let _ ← advance
        grammar .expr
      let last ← closing .closeBracket fun found =>
        if found = .eof then .unclosed (.mark .openBracket) place found
        else .unexpected (.commaOr (.mark .closeBracket)) found
      addExpr (.index receiver key) ((← spanOf receiver).merge last.span)) := by
  simp only [← closing_bind]
  rfl

/-- Between the two places stands a call, a member or an index.  None of them
is a target. -/
def ConsumedSuffix (before : List TokenKind) (program : Program) (id : ExprId)
    (after : List TokenKind) : Prop :=
  ∃ piece, before = piece ++ after ∧
    (∀ others, Derives .lenient .suffixes others →
      Derives .lenient .suffixes (piece ++ others)) ∧
    ∀ kinds, TargetsOnly kinds program id

section Suffixes

variable {receiver : ExprId} (hreceiver : base.HasExpr receiver)

include hreceiver

theorem consumes_call :
    Runs false around base (call grammar receiver) (.mark .openParen :: before)
      (ConsumedSuffix (.mark .openParen :: before)) := by
  refine .within _ ((consumes_delimited hgrammar (fun _ => rfl)
    (fun _ => rfl) rfl).bind ?_)
  rintro program ⟨entries, comma, span⟩ after hgrows ⟨kinds, rfl, hkinds, -⟩
  refine .add (fun _ => Program.grows_addEntries _ _) fun newer _ hmore => ?_
  have hthere := hreceiver.grows (hgrows.trans hmore)
  exact .spanOf hthere fun _ => runs_addExpr fun _ _ _ hexpr =>
    ⟨.mark .openParen :: (kinds ++ [.mark .closeParen]), by simp,
      fun others hothers => by simpa using Derives.call hkinds hothers,
      fun _ => targetsOnly_of_form _ rfl hexpr⟩

omit hgrammar in
theorem consumes_member :
    Runs false around base (member receiver) (.mark .dot :: before)
      (ConsumedSuffix (.mark .dot :: before)) := by
  refine .within _ (.step rfl nofun fun _ _ => .look fun cursor hsees => ?_)
  have hkind := hsees.kind_current_eq
  have hmember : ∀ {kind : TokenKind} (key : Key), firstOf before = kind →
      kind.isMember = true → Runs false around base
        (do
          let _ ← advance
          addExpr (.member receiver key)
            ((← spanOf receiver).merge cursor.current.span))
        before (ConsumedSuffix (.mark .dot :: before)) := by
    intro kind key hfirst hiskey
    have hplain : kind.isPlain = true ∧ kind ≠ .eof := by
      cases kind with
      | ident | int => exact ⟨rfl, nofun⟩
      | _ => cases hiskey
    obtain ⟨more, rfl⟩ := eq_cons_of_firstOf hfirst hplain.2
    refine .step hplain.1 hplain.2 fun _ _ => .spanOf hreceiver fun _ => ?_
    exact runs_addExpr fun _ _ _ hexpr =>
      ⟨[.mark .dot, kind], rfl, fun _ => .member kind hiskey,
        fun _ => targetsOnly_of_form _ rfl hexpr⟩
  split
  · next hfound => exact hmember _ (hkind.symm.trans hfound) rfl
  · next hfound => exact hmember _ (hkind.symm.trans hfound) rfl
  · exact runs_fault rfl

theorem consumes_index :
    Runs false around base (index grammar receiver)
      (.mark .openBracket :: before)
      (ConsumedSuffix (.mark .openBracket :: before)) := by
  rw [index_eq]
  refine .within _ (.look fun _ _ => ?_)
  refine .region rfl rfl rfl (closes_closing _ _) (hgrammar.expr _ _ _) nofun ?_
  rintro program key after token hgrows ⟨kinds, hbefore, hkinds, -⟩
  subst hbefore
  have hthere := hreceiver.grows hgrows
  exact .spanOf hthere fun _ => runs_addExpr fun _ _ _ hexpr =>
    ⟨.mark .openBracket :: (kinds ++ [.mark .closeBracket]), by simp,
      fun others hothers => by simpa using Derives.index hkinds hothers,
      fun _ => targetsOnly_of_form _ rfl hexpr⟩

/-- What a token after an expression asks for. -/
theorem consumes_suffix {op : ExprId → Parse ExprId}
    (hop : Precedence.suffix? grammar (firstOf before) = some op) :
    Runs false around base (op receiver) before (ConsumedSuffix before) := by
  unfold Precedence.suffix? at hop
  split at hop
  · next hkind =>
    obtain ⟨more, rfl⟩ := eq_cons_of_firstOf hkind nofun
    cases hop
    exact consumes_call hgrammar hreceiver
  · next hkind =>
    obtain ⟨more, rfl⟩ := eq_cons_of_firstOf hkind nofun
    cases hop
    exact consumes_member hreceiver
  · next hkind =>
    obtain ⟨more, rfl⟩ := eq_cons_of_firstOf hkind nofun
    cases hop
    exact consumes_index hgrammar hreceiver
  · cases hop

end Suffixes

theorem consumes_postfixFrom (rounds : Nat) {left : ExprId}
    {kinds : List TokenKind} (hleft : TargetsOnly kinds base left) :
    Runs false around base (postfixFrom grammar rounds left) before
      fun program id after => ∃ others, before = others ++ after ∧
        Derives .lenient .suffixes others ∧
        TargetsOnly (kinds ++ others) program id := by
  induction rounds generalizing base left kinds before with
  | zero => exact runs_exhausted
  | succ rounds ih =>
      rw [Precedence.postfixFrom_succ]
      apply Runs.kind
      split
      · refine runs_pure fun _ hgrows => ⟨[], rfl, .noSuffix, ?_⟩
        rw [List.append_nil]
        exact hleft.grows hgrows
      · next op hop =>
        refine (consumes_suffix hgrammar hleft.hasExpr hop).bind ?_
        rintro program id middle - ⟨piece, rfl, hpiece, htargets⟩
        refine (ih (htargets (kinds ++ piece))).mono ?_
        rintro last result after - ⟨others, rfl, hothers, hlast⟩
        exact ⟨piece ++ others, by simp, hpiece _ hothers, by simpa using hlast⟩

theorem consumes_postfixExpr :
    Runs false around base (postfixExpr grammar) before
      (ConsumedExpr (.expr .suffix) before) := by
  refine (consumes_atom hgrammar).bind ?_
  rintro program left middle - ⟨kinds, rfl, hkinds, htargets⟩
  refine .look fun _ _ => (consumes_postfixFrom hgrammar _ htargets).mono ?_
  rintro last id after - ⟨others, rfl, hothers, hlast⟩
  exact ⟨kinds ++ others, by simp, .suffixed hkinds hothers, hlast⟩

omit hgrammar in
/-- An expression of a tighter level, where no operator is needed. -/
theorem ConsumedExpr.plain (level : Precedence) {program : Program}
    {id : ExprId} {after : List TokenKind}
    (hconsumed : ConsumedExpr (.expr level.tighter) before program id after)
    (hlevel : level.isOptional = true) :
    ConsumedExpr (.expr level) before program id after := by
  obtain ⟨kinds, hbefore, hkinds, htargets⟩ := hconsumed
  exact ⟨kinds, hbefore, .plain hlevel hkinds, htargets⟩

omit hgrammar in
theorem consumes_addUnary {op : UnaryOp} {start : Span} {operand : ExprId}
    {phrase : Phrase} {kinds after : List TokenKind}
    (hoperand : base.HasExpr operand) (hkinds : Derives .lenient phrase kinds)
    (hbefore : before = kinds ++ after) :
    Runs false around base (addUnary op start operand) after
      (ConsumedExpr phrase before) :=
  (runs_addUnary hoperand).mono fun _ _ _ _ ⟨hafter, hexpr⟩ =>
    ⟨kinds, hafter ▸ hbefore, hkinds, targetsOnly_of_form kinds rfl hexpr⟩

theorem consumes_signExpr :
    Runs false around base (signExpr grammar) before
      (ConsumedExpr (.expr .sign) before) := by
  apply Runs.kind
  split
  · exact (consumes_postfixExpr hgrammar).mono fun _ _ _ _ hconsumed =>
      hconsumed.plain .sign rfl
  · next op hop =>
    have hsign : firstOf before ∈ [.mark .plus, .mark .minus] := by
      unfold sign? at hop
      split at hop
      · next hkind => simp [hkind]
      · next hkind => simp [hkind]
      · cases hop
    have hplain := readsPlain_sign? _ _ hop
    have heof : firstOf before ≠ .eof := by
      intro heof
      rw [heof] at hop
      cases hop
    obtain ⟨kind, more, rfl⟩ := exists_cons_of_firstOf heof
    refine .step hplain heof fun _ _ => (hgrammar.signExpr _ _ _).bind ?_
    rintro program operand after - ⟨kinds, rfl, hkinds, htargets⟩
    exact consumes_addUnary htargets.hasExpr (.signed kind hsign hkinds) rfl

/-- The levels of binary operators that group to the left. -/
theorem consumes_sumExpr :
    Runs false around base (sumExpr grammar) before
      (ConsumedExpr (.expr .sum) before) :=
  consumes_chain .sum (fun _ _ => consumes_chain .product
    (fun _ _ => consumes_signExpr hgrammar) rfl) rfl

theorem consumes_composeExpr :
    Runs false around base (composeExpr grammar) before
      (ConsumedExpr (.expr .compose) before) :=
  consumes_chain .compose (fun _ _ => consumes_sumExpr hgrammar) rfl

theorem consumes_relationExpr :
    Runs false around base (relationExpr grammar) before
      (ConsumedExpr (.expr .relation) before) := by
  refine (consumes_composeExpr hgrammar).bind ?_
  intro program left middle _ hleft
  apply Runs.kind
  split
  · exact runs_pure fun _ hgrows =>
      (hleft.grows hgrows).plain .relation rfl
  · next op hop =>
    have hmem := (Precedence.mem_relation_operators_iff _).mpr
      (by rw [hop]; rfl)
    obtain ⟨hplain, heof⟩ := Precedence.isPlain_of_mem_operators hmem
    obtain ⟨kind, more, rfl⟩ := exists_cons_of_firstOf heof
    obtain ⟨kinds, rfl, hkinds, htargets⟩ := hleft
    refine .step hplain heof fun _ _ => (consumes_composeExpr hgrammar).bind ?_
    rintro newer right after hgrows ⟨others, rfl, hothers, hright⟩
    apply Runs.kind
    split
    · exact runs_fault rfl
    · refine (runs_addJoined (htargets.grows hgrows).hasExpr hright.hasExpr).mono ?_
      rintro last id _ - ⟨rfl, hexpr⟩
      exact ⟨kinds ++ kind :: others, by simp, .comparison kind hmem hkinds hothers,
        targetsOnly_of_form _ rfl hexpr⟩

theorem consumes_notExpr :
    Runs false around base (notExpr grammar) before
      (ConsumedExpr (.expr .not) before) := by
  apply Runs.check
  split
  · next hnot =>
    rw [TokenKind.sameVariant_keyword_iff] at hnot
    obtain ⟨more, rfl⟩ := eq_cons_of_firstOf hnot nofun
    refine .step rfl nofun fun _ _ => (hgrammar.notExpr _ _ _).bind ?_
    rintro program operand after - ⟨kinds, rfl, hkinds, htargets⟩
    exact consumes_addUnary htargets.hasExpr (.negation hkinds) rfl
  · exact (consumes_relationExpr hgrammar).mono fun _ _ _ _ hconsumed =>
      hconsumed.plain .not rfl

theorem consumes_orExpr :
    Runs false around base (orExpr grammar) before
      (ConsumedExpr (.expr .or) before) :=
  consumes_chain .or (fun _ _ => consumes_chain .and
    (fun _ _ => consumes_notExpr hgrammar) rfl) rfl

theorem consumes_assignExpr :
    Runs false around base (assignExpr grammar) before
      (ConsumedExpr (.expr .assign) before) := by
  refine (consumes_orExpr hgrammar).bind ?_
  intro program left middle _ hleft
  apply Runs.check
  split
  · next hassign =>
    rw [TokenKind.sameVariant_mark_iff] at hassign
    obtain ⟨more, rfl⟩ := eq_cons_of_firstOf hassign nofun
    obtain ⟨kinds, rfl, hkinds, htargets⟩ := hleft
    refine .row htargets fun row hrow => ?_
    split
    · exact runs_fail rfl
    · next key hkey =>
      have htarget := hrow (by rw [hkey]; rfl)
      refine .step rfl nofun fun _ _ => (hgrammar.expr _ _ _).bind ?_
      rintro newer value after - ⟨others, rfl, hothers, hvalue⟩
      exact .spanOf hvalue.hasExpr fun _ =>
        consumes_addExpr (.assign htarget hothers) rfl (by simp)
  · exact runs_pure fun _ hgrows =>
      (hleft.grows hgrows).plain .assign rfl

end Expressions

end Parse

end ChainScript
