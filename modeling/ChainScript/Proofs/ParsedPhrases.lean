import ChainScript.Proofs.ConsumedPhrases
import ChainScript.Proofs.PhraseStarts

/-
The phrases of the uniform dialect are read by the rules of the parser.

Each rule goes over a phrase and stops where the phrase does, provided that the
token after it does not go on with it.  By induction on the derivation this needs
one step for each production.  The grammar may have any depth, since a rule that
has no depth left says nothing.
-/

namespace ChainScript

open Step Parse

namespace Parse

variable {α β : Type} {around : Surroundings} {base : Program}
  {before middle more : List TokenKind}

/-- The parser surely goes from `before` to `more`. -/
def Takes (around : Surroundings) (base : Program) (parser : Parse α)
    (before more : List TokenKind) (Good : Program → α → Prop) : Prop :=
  Runs true around base parser before fun program value after =>
    after = more ∧ Good program value

theorem Takes.bind {first : Parse α} {next : α → Parse β}
    {Mid : Program → α → Prop} {Good : Program → β → List TokenKind → Prop}
    (hfirst : Takes around base first before middle Mid)
    (hnext : ∀ program value, base.Grows program → Mid program value →
      Runs true around program (next value) middle Good) :
    Runs true around base (first >>= next) before Good :=
  Runs.bind hfirst fun program value _ hgrows ⟨hafter, hmid⟩ =>
    hafter ▸ hnext program value hgrows hmid

theorem takes_pure {value : α} {Good : Program → α → Prop}
    (hgood : ∀ program, base.Grows program → Good program value) :
    Takes around base (pure value) more more Good :=
  runs_pure fun program hgrows => ⟨rfl, hgood program hgrows⟩

/-- The expression is there, and it is a target if its tokens are one. -/
def Targets (kinds : List TokenKind) (program : Program) (id : ExprId) : Prop :=
  program.ExprIs id fun form =>
    Target .uniform kinds → (target? form).isSome = true

theorem Targets.grows {kinds : List TokenKind} {older newer : Program}
    {id : ExprId} (htargets : Targets kinds older id)
    (hgrows : older.Grows newer) : Targets kinds newer id :=
  Program.ExprIs.grows hgrows htargets fun _ himp => himp

theorem Targets.hasExpr {kinds : List TokenKind} {program : Program}
    {id : ExprId} (htargets : Targets kinds program id) : program.HasExpr id :=
  Program.ExprIs.hasExpr htargets

/-- An entry that is no more than an expression has one. -/
def HasItem (program : Program) (entry : Entry) : Prop :=
  ∀ inner, entry.kind = .item inner → program.HasExpr inner

/-- The token comes after an entry or a parameter. -/
def ClosesItem (kind : TokenKind) : Prop :=
  kind = .mark .comma ∨ kind = .mark .closeParen ∨ kind = .mark .closeBracket

/-- Nothing that comes next belongs to the statement before. -/
structure EndsForm (more : List TokenKind) : Prop where
  ends : endsStatement (firstOf more) = true
  noElif : firstOf (more.dropWhile isBreak) ≠ .keyword .elifKw
  noElse : firstOf (more.dropWhile isBreak) ≠ .keyword .elseKw

end Parse

/-- What the parser does with a phrase, at every depth. -/
def Phrase.Parses : Phrase → List TokenKind → Prop
  | .expr level, kinds => ∀ depth around base more,
      level.Ends (firstOf more) →
      Takes around base (level.rule (grammar depth)) (kinds ++ more) more
        (Targets kinds)
  | .operands level, kinds => ∀ depth around base more rounds left,
      level.chains = true → level.Ends (firstOf more) →
      base.HasExpr left →
      Takes around base
        (chainFrom level.joiner (level.tighter.rule (grammar depth)) rounds left)
        (kinds ++ more) more fun program id =>
          program.HasExpr id ∧ (kinds = [] → id = left)
  | .suffixes, kinds => ∀ depth around base more rounds left,
      Precedence.suffix.Ends (firstOf more) → base.HasExpr left →
      Takes around base (postfixFrom (grammar depth) rounds left)
        (kinds ++ more) more fun program id =>
          program.HasExpr id ∧ (kinds = [] → id = left)
  | .atom, kinds => ∀ depth around base more,
      Takes around base (Parse.atom (grammar depth)) (kinds ++ more) more
        (Targets kinds)
  | .entries, kinds => ∀ depth around base more rounds comma opener place
      (close : Mark), firstOf more = .mark close → ClosesItem (.mark close) →
      close ≠ .comma → Takes around base
        (Parse.entriesFrom (grammar depth) opener place (.mark close) rounds comma)
        (kinds ++ more) more fun program result =>
          ∀ entry ∈ result.1, HasItem program entry
  | .entry, kinds => ∀ depth around base more, ClosesItem (firstOf more) →
      Takes around base (Parse.entry (grammar depth)) (kinds ++ more) more HasItem
  | .params, kinds => ∀ depth around base more rounds place,
      firstOf more = .mark .closeParen →
      Takes around base (Parse.paramsFrom (grammar depth) place rounds)
        (kinds ++ more) more fun _ _ => True
  | .param, kinds => ∀ depth around base more, ClosesItem (firstOf more) →
      Takes around base (Parse.param (grammar depth)) (kinds ++ more) more
        fun _ (param : Param) => param.rest = false
  | .block inLoop, kinds => ∀ depth around base more,
      around.inLoop = inLoop →
      Takes around base (Parse.block (grammar depth)) (kinds ++ more) more
        fun _ _ => True
  | .small inLoop, kinds | .compound inLoop, kinds | .statement inLoop, kinds =>
      ∀ depth around base more, around.inLoop = inLoop → EndsForm more →
      Takes around base (Parse.statementForm (grammar depth)) (kinds ++ more) more
        fun _ _ => True
  | .branches inLoop, kinds => ∀ depth around base more,
      around.inLoop = inLoop → EndsForm more →
      Takes around base (Parse.otherBranch (grammar depth)) (kinds ++ more) more
        fun _ _ => True
  | .statements inLoop, kinds => ∀ depth around base more stop rounds,
      around.inLoop = inLoop → firstOf more = stop →
      (stop = .mark .closeBrace ∨ stop = .eof) →
      Takes around base (Parse.statementsFrom (grammar depth) stop rounds)
        (kinds ++ more) more fun _ _ => True
  | .script, kinds => ∀ depth around base, around.inLoop = false →
      Takes around base (Parse.script (grammar depth)) kinds [.eof] fun _ _ => True
  | .inline _, _ => True

section Follows

/-- Phrases of the list end at the operators of looser levels. -/
theorem Derives.firstOf_operands {dialect : Dialect} {level : Precedence}
    {kinds : List TokenKind} (hderives : Derives dialect (.operands level) kinds) :
    kinds = [] ∨ firstOf kinds ∈ level.operators := by
  cases hderives with
  | noOperand => exact .inl rfl
  | operand op hop => exact .inr hop

theorem Precedence.rank_lt_tighter {level : Precedence}
    (hchains : level.chains = true) : level.rank < level.tighter.rank := by
  cases level <;> first | decide | cases hchains

/-- Behind an operand of a chain, its level is next or over. -/
theorem ends_of_operands {dialect : Dialect} {level : Precedence}
    {others more : List TokenKind} (hchains : level.chains = true)
    (hothers : Derives dialect (.operands level) others)
    (hends : level.Ends (firstOf more)) :
    level.tighter.Ends (firstOf (others ++ more)) := by
  have hrank := Precedence.rank_lt_tighter hchains
  rcases hothers.firstOf_operands with rfl | hop
  · exact hends.mono (Nat.le_of_lt hrank)
  · have hne : others ≠ [] := by
      rintro rfl
      cases level <;> simp [Precedence.operators] at hop
    intro joint hjoint
    rw [firstOf_append hne, Precedence.joint?_of_mem_operators hop] at hjoint
    cases hjoint
    exact hrank

/-- A target has no operand more than the first one. -/
theorem Target.eq_nil_of_append {kinds others : List TokenKind}
    (htarget : Target .uniform (kinds ++ others)) (hne : kinds ≠ [])
    (hothers : others = [] ∨ (firstOf others).joint?.isSome = true) :
    others = [] := by
  rcases hothers with hnil | hjoint
  · exact hnil
  generalize hall : kinds ++ others = all at htarget
  cases kinds with
  | nil => exact absurd rfl hne
  | cons kind kinds =>
      cases htarget with
      | ident name =>
          exact (List.append_eq_nil_iff.mp (List.cons.inj hall).2).2
      | badge key hkey =>
          obtain ⟨-, hrest⟩ := List.cons.inj hall
          rcases List.append_eq_singleton_iff.mp hrest with
            ⟨-, rfl⟩ | ⟨-, hnil⟩
          · cases key <;> first | cases hjoint | cases hkey
          · exact hnil
      | wrapped _ hwraps => cases hwraps

/-- What comes after an item ends every expression. -/
theorem Parse.ClosesItem.joint? {kind : TokenKind} (hcloses : ClosesItem kind) :
    kind.joint? = none := by
  rcases hcloses with rfl | rfl | rfl <;> rfl

end Follows

section Operators

variable {level : Precedence} {kinds others : List TokenKind}

/-- A rule that the grammar refers back to. -/
theorem parses_expr (hkinds : (Phrase.expr .assign).Parses kinds) (depth : Nat)
    (around : Surroundings) (base : Program) (more : List TokenKind)
    (hmore : (firstOf more).joint? = none) :
    Takes around base (grammar depth .expr) (kinds ++ more) more
      (Targets kinds) := by
  cases depth with
  | zero => exact runs_exhausted
  | succ depth =>
      exact hkinds depth around base more (Precedence.ends_of_joint? hmore _)

theorem parses_noOperand : (Phrase.operands level).Parses [] := by
  intro depth around base more rounds left _ hends hleft
  cases rounds with
  | zero => exact runs_exhausted
  | succ rounds =>
      apply Runs.kind
      rw [List.nil_append, hends.joiner]
      exact takes_pure fun _ hgrows => ⟨hleft.grows hgrows, fun _ => rfl⟩

theorem parses_operand {op : TokenKind} (hop : op ∈ level.operators)
    (hoperand : (Phrase.expr level.tighter).Parses kinds)
    (hrest : (Phrase.operands level).Parses others)
    (hothers : Derives .uniform (.operands level) others) :
    (Phrase.operands level).Parses (op :: (kinds ++ others)) := by
  intro depth around base more rounds left hchains hends hleft
  simp only [List.cons_append, List.append_assoc]
  cases rounds with
  | zero => exact runs_exhausted
  | succ rounds =>
      apply Runs.kind
      obtain ⟨join, hjoin⟩ := Option.isSome_iff_exists.mp
        ((Precedence.mem_operators_iff hchains op).mp hop)
      rw [firstOf_cons, hjoin]
      obtain ⟨hplain, heof⟩ := Precedence.isPlain_of_mem_operators hop
      refine .step hplain heof fun _ _ => (hoperand depth around base _
        (ends_of_operands hchains hothers hends)).bind ?_
      intro program right hgrows hright
      refine (runs_addJoined (hleft.grows hgrows) hright.hasExpr).bind ?_
      rintro newer joined _ - ⟨rfl, hjoined⟩
      refine (hrest depth around newer more rounds joined hchains hends
        hjoined.hasExpr).mono ?_
      rintro last id after - ⟨hafter, hid, -⟩
      exact ⟨hafter, hid, nofun⟩

/-- Operands joined to the left: no more than one of them is a target. -/
theorem parses_chain (hchains : level.chains = true)
    (hoperand : (Phrase.expr level.tighter).Parses kinds)
    (hstarts : kinds ≠ [])
    (hrest : (Phrase.operands level).Parses others)
    (hothers : Derives .uniform (.operands level) others) :
    (Phrase.expr level).Parses (kinds ++ others) := by
  intro depth around base more hends
  rw [Precedence.rule_of_chains _ hchains, List.append_assoc]
  refine (hoperand depth around base _
    (ends_of_operands hchains hothers hends)).bind ?_
  intro program first _ hfirst
  refine .look fun _ _ => ?_
  refine (hrest depth around program more _ first hchains hends
    hfirst.hasExpr).mono ?_
  rintro newer id after hgrows ⟨hafter, ⟨row, hrow⟩, hsame⟩
  refine ⟨hafter, row, hrow, fun htarget => ?_⟩
  obtain rfl := htarget.eq_nil_of_append hstarts
    (hothers.starts.imp_right And.left)
  obtain rfl := hsame rfl
  obtain ⟨other, hother, hform⟩ := hfirst.grows hgrows
  rw [hrow] at hother
  cases hother
  exact hform (by rwa [List.append_nil] at htarget)

/-- An expression of a tighter level, in front of no operator of this one. -/
theorem parses_plain (hlevel : level.isOptional = true)
    (hkinds : (Phrase.expr level.tighter).Parses kinds)
    (hleads : (firstOf kinds).Leads level.tighter) :
    (Phrase.expr level).Parses kinds := by
  intro depth around base more hends
  have hne : kinds ≠ [] := by
    rintro rfl
    obtain ⟨lead, hlead, -⟩ := hleads
    cases hlead
  have hfirst := firstOf_append hne more
  have htight := hends.mono (Precedence.rank_le_tighter level)
  have hrun := hkinds depth around base more htight
  cases level with
  | assign =>
      refine hrun.bind fun program id _ hid => .check ?_
      have hassign : firstOf more ≠ .mark .assign := by
        intro hkind
        exact absurd (hends .assign (by rw [hkind]; rfl)) (Nat.lt_irrefl _)
      rw [TokenKind.sameVariant_mark hassign]
      exact takes_pure fun _ hgrows => hid.grows hgrows
  | not =>
      refine .check ?_
      have hnot : firstOf (kinds ++ more) ≠ .keyword .notKw := by
        rw [hfirst]
        rintro hkind
        obtain ⟨lead, hlead, hle⟩ := hleads
        rw [hkind] at hlead
        cases hlead
        exact absurd hle (by decide)
      rw [TokenKind.sameVariant_keyword hnot]
      exact hrun
  | relation =>
      refine hrun.bind fun program id _ hid => .kind ?_
      rw [hends.precedes.comparison?]
      exact takes_pure fun _ hgrows => hid.grows hgrows
  | sign =>
      refine .kind ?_
      rw [hfirst, hleads.sign?]
      exact hrun
  | or | and | compose | sum | product | suffix => cases hlevel

/-- An expression that cannot be a target has only to be there. -/
theorem takes_of_hasExpr {parser : Parse ExprId}
    {before more kinds : List TokenKind} {around : Surroundings} {base : Program}
    (hruns : Takes around base parser before more Program.HasExpr)
    (hkinds : ¬ Target .uniform kinds) :
    Takes around base parser before more (Targets kinds) :=
  hruns.mono fun _ _ _ _ ⟨hafter, row, hrow⟩ =>
    ⟨hafter, row, hrow, fun htarget => absurd htarget hkinds⟩

theorem takes_addExpr {form : ExprKind} {span : Span} {around : Surroundings}
    {base : Program} {more : List TokenKind} :
    Takes around base (addExpr form span) more more Program.HasExpr :=
  runs_addExpr fun _ _ _ hexpr => ⟨rfl, hexpr.hasExpr⟩

theorem takes_addUnary {op : UnaryOp} {start : Span} {operand : ExprId}
    {around : Surroundings} {base : Program} {more : List TokenKind}
    (hoperand : base.HasExpr operand) :
    Takes around base (addUnary op start operand) more more Program.HasExpr :=
  .spanOf hoperand fun _ => takes_addExpr

theorem not_target_of_isKey {kind : TokenKind} {kinds : List TokenKind}
    (hkey : kind.isKey = false) (hbadge : kind ≠ .mark .badge) :
    ¬ Target .uniform (kind :: kinds) := by
  intro htarget
  cases htarget with
  | ident name => cases hkey
  | badge key _ => exact hbadge rfl
  | wrapped _ hwraps => cases hwraps

theorem parses_negation (hoperand : (Phrase.expr .not).Parses kinds) :
    (Phrase.expr .not).Parses (.keyword .notKw :: kinds) := by
  intro depth around base more hends
  refine takes_of_hasExpr (.check (.step rfl nofun fun _ _ => ?_))
    (not_target_of_isKey rfl nofun)
  have hrun : Takes around base (grammar depth .notExpr) (kinds ++ more) more
      (Targets kinds) := by
    cases depth with
    | zero => exact runs_exhausted
    | succ depth => exact hoperand depth around base more hends
  exact hrun.bind fun _ _ _ hid => takes_addUnary hid.hasExpr

theorem parses_signed {sign : TokenKind}
    (hsign : sign ∈ [.mark .plus, .mark .minus])
    (hoperand : (Phrase.expr .sign).Parses kinds) :
    (Phrase.expr .sign).Parses (sign :: kinds) := by
  intro depth around base more hends
  have hrun : Takes around base (grammar depth .signExpr) (kinds ++ more) more
      (Targets kinds) := by
    cases depth with
    | zero => exact runs_exhausted
    | succ depth => exact hoperand depth around base more hends
  simp only [List.mem_cons, List.not_mem_nil, or_false] at hsign
  rcases hsign with rfl | rfl
  · exact takes_of_hasExpr (.kind (.step rfl nofun fun _ _ =>
      hrun.bind fun _ _ _ hid => takes_addUnary hid.hasExpr))
      (not_target_of_isKey rfl nofun)
  · exact takes_of_hasExpr (.kind (.step rfl nofun fun _ _ =>
      hrun.bind fun _ _ _ hid => takes_addUnary hid.hasExpr))
      (not_target_of_isKey rfl nofun)

theorem parses_comparison {op : TokenKind} {left right : List TokenKind}
    (hop : op ∈ Precedence.relation.operators)
    (hleft : (Phrase.expr .compose).Parses left)
    (hstarts : left ≠ [])
    (hright : (Phrase.expr .compose).Parses right) :
    (Phrase.expr .relation).Parses (left ++ op :: right) := by
  intro depth around base more hends
  have hjoint := Precedence.joint?_of_mem_operators hop
  rw [List.append_assoc, List.cons_append]
  refine takes_of_hasExpr ?_ fun htarget => nomatch
    htarget.eq_nil_of_append hstarts (.inr (by rw [firstOf_cons, hjoint]; rfl))
  refine (hleft depth around base _ ?_).bind fun program one _ hone => .kind ?_
  · intro joint hsome
    rw [firstOf_cons, hjoint] at hsome
    cases hsome
    decide
  obtain ⟨comparison, hcomparison⟩ := Option.isSome_iff_exists.mp
    ((Precedence.mem_relation_operators_iff op).mp hop)
  obtain ⟨hplain, heof⟩ := Precedence.isPlain_of_mem_operators hop
  rw [firstOf_cons, hcomparison]
  refine .step hplain heof fun _ _ => ?_
  refine (hright depth around program more (hends.mono (by decide))).bind
    fun newer other hgrows hother => .kind ?_
  rw [hends.precedes.comparison?]
  exact (runs_addJoined (hone.grows hgrows).hasExpr hother.hasExpr).mono
    fun _ _ _ _ ⟨hafter, hexpr⟩ => ⟨hafter, hexpr.hasExpr⟩

end Operators

section Suffixes

variable {kinds others entries : List TokenKind}

theorem parses_noSuffix : Phrase.suffixes.Parses [] := by
  intro depth around base more rounds left hends hleft
  cases rounds with
  | zero => exact runs_exhausted
  | succ rounds =>
      rw [Precedence.postfixFrom_succ]
      apply Runs.kind
      rw [List.nil_append, hends.suffix?]
      exact takes_pure fun _ hgrows => ⟨hleft.grows hgrows, fun _ => rfl⟩

/-- One more round after a call, a member or an index. -/
theorem takes_postfixFrom {kind : TokenKind}
    {before more read : List TokenKind}
    {depth rounds : Nat} {around : Surroundings} {base : Program} {left : ExprId}
    {op : ExprId → Parse ExprId}
    (hop : Precedence.suffix? (grammar depth) kind = some op)
    (hends : Precedence.suffix.Ends (firstOf more))
    (hothers : Phrase.suffixes.Parses others)
    (hruns : Takes around base (op left) (kind :: before) (others ++ more)
      Program.HasExpr) :
    Takes around base (postfixFrom (grammar depth) rounds left)
      (kind :: before) more fun program id =>
        program.HasExpr id ∧ (kind :: read = [] → id = left) := by
  cases rounds with
  | zero => exact runs_exhausted
  | succ rounds =>
      rw [Precedence.postfixFrom_succ]
      apply Runs.kind
      rw [firstOf_cons, hop]
      exact hruns.bind fun program id _ hid =>
        (hothers depth around program more rounds id hends hid).mono
          fun _ _ _ _ ⟨hafter, hexpr, _⟩ => ⟨hafter, hexpr, nofun⟩

/-- A list of entries and its delimiters. -/
theorem takes_delimited {mark close : Mark}
    (hopens : ∀ opened, openAfter opened (.mark mark) = mark :: opened)
    (hcloses : ∀ opened, openAfter (mark :: opened) (.mark close) = opened)
    (hbracket : mark.isBracket = true) (hitem : ClosesItem (.mark close))
    (hcomma : close ≠ .comma) (hentries : Phrase.entries.Parses entries)
    (depth : Nat) {around : Surroundings} {base : Program}
    {more : List TokenKind} :
    Takes around base (delimited (grammar depth) (.mark mark) (.mark close))
      (.mark mark :: (entries ++ .mark close :: more)) more
      fun program result => ∀ entry ∈ result.1, HasItem program entry := by
  rw [delimited_eq]
  refine .look fun _ _ => ?_
  refine .region (hopens _) (hcloses _) (by rw [hbracket]; rfl)
    (closes_expect close) (.look fun _ _ => hentries depth _ _
      (.mark close :: more) _ _ _ _ close rfl hitem hcomma)
    (fun _ _ _ _ ⟨hafter, _⟩ => by rw [hafter]; rfl) ?_
  rintro program result after _ - ⟨hafter, hitems⟩
  obtain ⟨-, rfl⟩ := List.cons.inj hafter
  exact takes_pure fun _ hgrows entry hmem inner hinner =>
    (hitems entry hmem inner hinner).grows hgrows

theorem parses_call (hentries : Phrase.entries.Parses entries)
    (hothers : Phrase.suffixes.Parses others) :
    Phrase.suffixes.Parses
      (.mark .openParen :: (entries ++ .mark .closeParen :: others)) := by
  intro depth around base more rounds left hends hleft
  simp only [List.cons_append, List.append_assoc]
  refine takes_postfixFrom rfl hends hothers (.within _ ?_)
  refine (takes_delimited (fun _ => rfl) (fun _ => rfl) rfl (.inr (.inl rfl))
    nofun hentries depth).bind ?_
  rintro program ⟨list, comma, span⟩ hgrows -
  exact .add (fun _ => Program.grows_addEntries _ _) fun _ _ hmore =>
    .spanOf (hleft.grows (hgrows.trans hmore)) fun _ => takes_addExpr

theorem parses_member {key : TokenKind} (hkey : key.isMember = true)
    (hothers : Phrase.suffixes.Parses others) :
    Phrase.suffixes.Parses (.mark .dot :: key :: others) := by
  intro depth around base more rounds left hends hleft
  simp only [List.cons_append]
  refine takes_postfixFrom rfl hends hothers (.within _ ?_)
  refine .step rfl nofun fun _ _ => .look fun cursor hsees => ?_
  rw [hsees.kind_current_eq]
  cases key with
  | ident | int =>
      exact .step rfl nofun fun _ _ => .spanOf hleft fun _ => takes_addExpr
  | _ => cases hkey

theorem parses_index (hkey : (Phrase.expr .assign).Parses kinds)
    (hothers : Phrase.suffixes.Parses others) :
    Phrase.suffixes.Parses
      (.mark .openBracket :: (kinds ++ .mark .closeBracket :: others)) := by
  intro depth around base more rounds left hends hleft
  simp only [List.cons_append, List.append_assoc]
  refine takes_postfixFrom rfl hends hothers ?_
  rw [index_eq]
  refine .within _ (.look fun _ _ => ?_)
  refine .region rfl rfl rfl (closes_closing _ _)
    (parses_expr hkey depth _ _ (.mark .closeBracket :: (others ++ more)) rfl)
    (fun _ _ _ _ ⟨hafter, _⟩ => by rw [hafter]; rfl) ?_
  rintro program id after _ hgrows ⟨hafter, -⟩
  obtain ⟨-, rfl⟩ := List.cons.inj hafter
  exact .spanOf (hleft.grows hgrows) fun _ => takes_addExpr

/-- What has no operands, with its suffixes: it is a target without any. -/
theorem parses_suffixed (hatom : Phrase.atom.Parses kinds) (hne : kinds ≠ [])
    (hrest : Phrase.suffixes.Parses others)
    (hothers : Derives .uniform .suffixes others) :
    (Phrase.expr .suffix).Parses (kinds ++ others) := by
  intro depth around base more hends
  rw [List.append_assoc]
  refine (hatom depth around base _).bind fun program first _ hfirst => ?_
  refine .look fun _ _ => ?_
  refine (hrest depth around program more _ first hends hfirst.hasExpr).mono ?_
  rintro newer id after hgrows ⟨hafter, ⟨row, hrow⟩, hsame⟩
  refine ⟨hafter, row, hrow, fun htarget => ?_⟩
  obtain rfl := htarget.eq_nil_of_append hne
    (hothers.starts.imp_right And.left)
  obtain rfl := hsame rfl
  obtain ⟨other, hother, hform⟩ := hfirst.grows hgrows
  rw [hrow] at hother
  cases hother
  exact hform (by rwa [List.append_nil] at htarget)

end Suffixes

section Atoms

variable {kinds entries params body : List TokenKind}

/-- A key as the parser reads it. -/
theorem exists_keyOf? {opened : List Mark} {cursor : Cursor}
    {kind : TokenKind} {more : List TokenKind}
    (hsees : cursor.Sees opened (kind :: more)) (hkey : kind.isKey = true) :
    ∃ key, keyOf? kind = some key := by
  cases kind with
  | ident name => exact ⟨_, rfl⟩
  | str text => exact ⟨_, rfl⟩
  | int value =>
      exact ⟨_, if_pos (hsees.lexed.unsigned value List.mem_cons_self)⟩
  | _ => cases hkey

/-- A token that spells an expression. -/
theorem parses_simple {kind : TokenKind} {form : ExprKind}
    (hsimple : simple? kind = some form)
    (htarget : Target .uniform [kind] → (target? form).isSome = true) :
    Phrase.atom.Parses [kind] := by
  intro depth around base more
  have hplain := readsPlain_simple? _ _ hsimple
  have heof : kind ≠ .eof := by
    rintro rfl
    cases hsimple
  have hadds : Runs true around base
      (do
        let token ← advance
        addExpr form token.span)
      (kind :: more) fun program id after =>
        after = more ∧ Targets [kind] program id :=
    .step hplain heof fun _ _ => runs_addExpr fun _ _ _ ⟨row, hrow, hform⟩ =>
      ⟨rfl, row, hrow, fun hkinds => hform ▸ htarget hkinds⟩
  refine .kind ?_
  rw [List.singleton_append, firstOf_cons]
  split
  · cases hsimple
  · cases hsimple
  · cases hsimple
  · cases hsimple
  · rw [hsimple]
    exact hadds

theorem parses_literal {kind : TokenKind} (hliteral : kind.isLiteral = true) :
    Phrase.atom.Parses [kind] := by
  have hform : ∃ form, simple? kind = some form ∧ kind.isLiteral = true := by
    unfold TokenKind.isLiteral at hliteral
    split at hliteral <;> first | exact ⟨_, rfl, rfl⟩ | cases hliteral
  obtain ⟨form, hsimple, -⟩ := hform
  refine parses_simple hsimple fun htarget => ?_
  generalize hall : [kind] = all at htarget
  cases htarget with
  | ident name => cases hall; cases hliteral
  | badge key _ => cases hall
  | wrapped _ hwraps => cases hwraps

theorem parses_name (name : String) : Phrase.atom.Parses [.ident name] :=
  parses_simple rfl fun _ => rfl

theorem parses_badge {key : TokenKind} (hkey : key.isKey = true) :
    Phrase.atom.Parses [.mark .badge, key] := by
  intro depth around base more
  simp only [List.cons_append, List.nil_append]
  refine .kind (.step rfl nofun fun _ _ => .look fun cursor hsees => ?_)
  obtain ⟨found, hfound⟩ := exists_keyOf? hsees hkey
  rw [hsees.kind_current_eq, firstOf_cons, hfound]
  obtain ⟨hplain, heof⟩ := TokenKind.isPlain_of_isKey hkey
  exact .step hplain heof fun _ _ => runs_addExpr
    fun _ _ _ ⟨row, hrow, hform⟩ => ⟨rfl, row, hrow, fun _ => by rw [hform]; rfl⟩

theorem parses_array (hentries : Phrase.entries.Parses entries) :
    Phrase.atom.Parses
      (.mark .openBracket :: (entries ++ [.mark .closeBracket])) := by
  intro depth around base more
  simp only [List.cons_append, List.append_assoc, List.nil_append]
  refine takes_of_hasExpr (.kind (.within _ ?_))
    (not_target_of_isKey rfl nofun)
  refine (takes_delimited (fun _ => rfl) (fun _ => rfl) rfl (.inr (.inr rfl))
    nofun hentries depth).bind ?_
  rintro program ⟨list, comma, span⟩ - -
  exact .add (fun _ => Program.grows_addEntries _ _) fun _ _ _ => takes_addExpr

/-- A group is the expression in it, which is no target here. -/
theorem parses_args (hentries : Phrase.entries.Parses entries) :
    Phrase.atom.Parses
      (.mark .openParen :: (entries ++ [.mark .closeParen])) := by
  intro depth around base more
  simp only [List.cons_append, List.append_assoc, List.nil_append]
  refine takes_of_hasExpr (.kind ?_) (not_target_of_isKey rfl nofun)
  refine Takes.bind (Runs.within _ (takes_delimited (fun _ => rfl)
    (fun _ => rfl) rfl (.inr (.inl rfl)) nofun hentries depth)) ?_
  rintro program ⟨list, comma, span⟩ - hitems
  dsimp only
  split
  · next inner place =>
    exact takes_pure fun _ hgrows =>
      (hitems _ List.mem_cons_self inner rfl).grows hgrows
  · exact .add (fun _ => Program.grows_addEntries _ _) fun _ _ _ =>
      takes_addExpr

/-- A block that the grammar refers back to. -/
theorem parses_blockRule {inLoop : Bool} (hbody : (Phrase.block inLoop).Parses body)
    (depth : Nat) {around : Surroundings} (base : Program)
    (more : List TokenKind) (hloop : around.inLoop = inLoop) :
    Takes around base (grammar depth .block) (body ++ more) more
      fun _ _ => True := by
  cases depth with
  | zero => exact runs_exhausted
  | succ depth => exact hbody depth around base more hloop

theorem takes_functionRest (hparams : Phrase.params.Parses params)
    (hbody : (Phrase.block false).Parses body) (depth : Nat) (name : String)
    (start : Span) {around : Surroundings} {base : Program}
    {more : List TokenKind} :
    Takes around base (functionRest (grammar depth) name start)
      (.mark .openParen :: (params ++ .mark .closeParen :: (body ++ more))) more
      fun _ _ => True := by
  have hlist : Takes around base (Parse.params (grammar depth))
      (.mark .openParen :: (params ++ .mark .closeParen :: (body ++ more)))
      (body ++ more) fun _ _ => True := by
    refine .look fun _ _ => .openRegion (fun _ => rfl) ?_
    rintro inside hinside
    obtain ⟨-, rfl⟩ := List.cons.inj hinside
    refine .region rfl rfl rfl (closes_expect .closeParen)
      (.look fun _ _ => hparams depth _ _
        (.mark .closeParen :: (body ++ more)) _ _ rfl)
      (fun _ _ _ _ ⟨hafter, _⟩ => by rw [hafter]; rfl) ?_
    rintro program list after _ - ⟨hafter, -⟩
    obtain ⟨-, rfl⟩ := List.cons.inj hafter
    exact takes_pure fun _ _ => trivial
  refine Takes.bind (Runs.within _ hlist) fun program list _ _ => ?_
  refine Takes.bind (Runs.inFunction
    (parses_blockRule hbody depth program more rfl)) fun _ block _ _ => ?_
  exact .add (fun _ => Program.grows_addParams _ _) fun _ _ _ =>
    runs_add (fun _ => Program.grows_addFunc _ _) fun _ _ _ => ⟨rfl, trivial⟩

theorem parses_func (hparams : Phrase.params.Parses params)
    (hbody : (Phrase.block false).Parses body) :
    Phrase.atom.Parses (.keyword .funcKw :: .mark .openParen ::
      (params ++ .mark .closeParen :: body)) := by
  intro depth around base more
  simp only [List.cons_append, List.append_assoc]
  refine takes_of_hasExpr (.kind (.within _ (.step rfl nofun fun _ _ => ?_)))
    (not_target_of_isKey rfl nofun)
  exact (takes_functionRest hparams hbody depth _ _).bind
    fun _ _ _ _ => .look fun _ _ => takes_addExpr

end Atoms

section Lists

variable {kinds others : List TokenKind}

/-- Behind the first token of an expression comes nothing that no expression
goes on with. -/
theorem Opens.second_ne {kind other : TokenKind} {more : List TokenKind}
    (hopens : Opens (kind :: kinds)) (hkey : kind.isKey = true)
    (hmore : firstOf more ≠ other) (hother : other.joint? = none) :
    firstOf (kinds ++ more) ≠ other := by
  rcases hopens.key hkey with hnone | ⟨hjoint, -⟩
  · obtain rfl : kinds = [] := hnone
    exact hmore
  · cases kinds with
    | nil => exact nomatch hjoint
    | cons second kinds =>
        rintro rfl
        exact nomatch hjoint.symm.trans (congrArg Option.isSome hother)

theorem parses_keyed {key : TokenKind} (hkey : key.isKey = true)
    (hvalue : (Phrase.expr .assign).Parses kinds) :
    Phrase.entry.Parses (key :: .mark .colon :: kinds) := by
  intro depth around base more hmore
  obtain ⟨hplain, heof⟩ := TokenKind.isPlain_of_isKey hkey
  refine .look fun _ _ => .eat rfl rfl nofun ?_ fun _ => ?_
  · intro rest hrest
    obtain ⟨rfl, -⟩ := List.cons.inj hrest
    cases hkey
  refine .kind (.look fun cursor hsees => ?_)
  obtain ⟨found, hfound⟩ := exists_keyOf? hsees hkey
  have hcolon : cursor.peek 1 = .mark .colon := hsees.peek_one hplain heof
  simp only [List.cons_append, firstOf_cons, hfound, hcolon]
  refine .step hplain heof fun _ _ => .step rfl nofun fun _ _ => ?_
  exact (parses_expr hvalue depth around base more hmore.joint?).bind
    fun _ _ _ hid => .spanOf hid.hasExpr fun _ => takes_pure fun _ _ => nofun

theorem parses_expand (name : String) :
    Phrase.entry.Parses [.mark .ellipsis, .ident name] := by
  intro depth around base more _
  refine .look fun _ _ => .eat rfl rfl nofun ?_ fun hne => absurd rfl hne
  intro rest hrest
  obtain ⟨-, rfl⟩ := List.cons.inj hrest
  refine .expectIdent (fun _ => ⟨name, rfl⟩) fun found last hlast => ?_
  obtain ⟨-, rfl⟩ := List.cons.inj hlast
  exact .look fun _ _ => takes_pure fun _ _ => nofun

theorem parses_item (hvalue : (Phrase.expr .assign).Parses kinds)
    (hleads : (firstOf kinds).Leads .assign) (hopens : Opens kinds) :
    Phrase.entry.Parses kinds := by
  intro depth around base more hmore
  have hitem : Takes around base
      (do
        let value ← grammar depth .expr
        return (⟨.item value, ← spanOf value⟩ : Entry))
      (kinds ++ more) more HasItem := by
    refine (parses_expr hvalue depth around base more hmore.joint?).bind
      fun _ value _ hid => .spanOf hid.hasExpr fun _ =>
        takes_pure fun _ hgrows inner hinner => ?_
    cases hinner
    exact hid.hasExpr.grows hgrows
  have hfirst := firstOf_append hopens.nonempty more
  refine .look fun _ _ => .eat rfl rfl nofun ?_ fun _ => ?_
  · intro rest hrest
    rw [hrest] at hfirst
    exact absurd hfirst.symm (hleads.ne rfl)
  refine .kind (.look fun cursor hsees => ?_)
  split
  · next key hkey hcolon =>
    -- The colon is no part of an expression.
    have hiskey := isKey_of_keyOf? hkey
    obtain ⟨hplain, heof⟩ := TokenKind.isPlain_of_isKey hiskey
    cases kinds with
    | nil => exact absurd rfl hopens.nonempty
    | cons kind kinds =>
        have hpeek : cursor.peek 1 = firstOf (kinds ++ more) :=
          hsees.peek_one hplain heof
        refine absurd (hpeek.symm.trans hcolon)
          (hopens.second_ne hiskey ?_ rfl)
        rcases hmore with hmore | hmore | hmore <;> rw [hmore] <;> nofun
  · exact hitem

theorem parses_noEntry : Phrase.entries.Parses [] := by
  intro depth around base more rounds comma opener place close hmore _ _
  cases rounds with
  | zero => exact runs_exhausted
  | succ rounds =>
      refine .check ?_
      rw [List.nil_append, (TokenKind.sameVariant_mark_iff _ _).mpr hmore]
      exact takes_pure fun _ _ => nofun

theorem Parse.HasItem.grows {older newer : Program} {entry : Entry}
    (hitem : HasItem older entry) (hgrows : older.Grows newer) :
    HasItem newer entry :=
  fun inner hinner => (hitem inner hinner).grows hgrows

/-- An entry in front of further ones. -/
theorem takes_cons {parser : Parse (List Entry × Bool)} {first : Entry}
    {around : Surroundings} {base : Program} {before more : List TokenKind}
    (hfirst : HasItem base first)
    (hothers : Takes around base parser before more
      fun program result => ∀ entry ∈ result.1, HasItem program entry) :
    Takes around base
      (do
        let (others, last) ← parser
        return (first :: others, last)) before more
      fun program result => ∀ entry ∈ result.1, HasItem program entry := by
  refine hothers.bind fun _ result hgrows hresult =>
    takes_pure fun _ hmore entry hmem => ?_
  rcases List.mem_cons.mp hmem with rfl | hrest
  · exact hfirst.grows (hgrows.trans hmore)
  · exact (hresult entry hrest).grows hmore

/-- Entries do not start like the close of their list. -/
theorem entry_ne_close {kinds : List TokenKind} {close : Mark}
    (hstarts : Phrase.entry.Starts kinds)
    (hclose : ClosesItem (.mark close)) (more : List TokenKind) :
    firstOf (kinds ++ more) ≠ .mark close := by
  have hne : kinds ≠ [] := by
    rintro rfl
    rcases hstarts with hlead | hellipsis
    · cases hlead
    · cases hellipsis
  rw [firstOf_append hne]
  intro hfirst
  rcases hstarts with hlead | hellipsis
  · rw [hfirst] at hlead
    rcases hclose with hmark | hmark | hmark <;>
      cases TokenKind.mark.inj hmark <;> cases hlead
  · rw [hfirst] at hellipsis
    rcases hclose with hmark | hmark | hmark <;>
      cases hmark.symm.trans hellipsis

theorem parses_lastEntry (hentry : Phrase.entry.Parses kinds)
    (hstarts : Phrase.entry.Starts kinds) : Phrase.entries.Parses kinds := by
  intro depth around base more rounds comma opener place close hmore hclose hne
  cases rounds with
  | zero => exact runs_exhausted
  | succ rounds =>
      refine .check ?_
      rw [TokenKind.sameVariant_mark (entry_ne_close hstarts hclose more)]
      refine (hentry depth around base more (hmore ▸ hclose)).bind
        fun program first _ hfirst => ?_
      refine .eat rfl rfl nofun (fun rest hrest => ?_) fun _ => .check ?_
      · rw [hrest] at hmore
        exact absurd (TokenKind.mark.inj hmore).symm hne
      rw [(TokenKind.sameVariant_mark_iff _ _).mpr hmore]
      exact takes_cons hfirst (parses_noEntry depth around program more rounds
        false opener place close hmore hclose hne)

theorem parses_nextEntry (hentry : Phrase.entry.Parses kinds)
    (hstarts : Phrase.entry.Starts kinds)
    (hothers : Phrase.entries.Parses others) :
    Phrase.entries.Parses (kinds ++ .mark .comma :: others) := by
  intro depth around base more rounds comma opener place close hmore hclose hne
  rw [List.append_assoc, List.cons_append]
  cases rounds with
  | zero => exact runs_exhausted
  | succ rounds =>
      refine .check ?_
      rw [TokenKind.sameVariant_mark (entry_ne_close hstarts hclose _)]
      refine (hentry depth around base _ (.inl rfl)).bind
        fun program first _ hfirst => ?_
      refine .eat rfl rfl nofun (fun rest hrest => ?_) fun hfalse =>
        absurd rfl hfalse
      obtain ⟨-, rfl⟩ := List.cons.inj hrest
      exact takes_cons hfirst (hothers depth around program more rounds true
        opener place close hmore hclose hne)

theorem parses_required (name : String) :
    Phrase.param.Parses [.ident name] := by
  intro depth around base more hmore
  refine .look fun _ _ => .eat rfl rfl nofun (fun rest hrest => by cases hrest)
    fun _ => .expectIdent (fun _ => ⟨name, rfl⟩) fun found last hlast => ?_
  obtain ⟨-, rfl⟩ := List.cons.inj hlast
  have hassign : firstOf more ≠ .mark .assign := by
    rcases hmore with hmore | hmore | hmore <;> rw [hmore] <;> nofun
  have hnone : Takes around base (default? (grammar depth)) more more
      fun _ _ => True :=
    .eat rfl rfl nofun (fun rest hrest => absurd (by rw [hrest]; rfl) hassign)
      fun _ => takes_pure fun _ _ => trivial
  exact hnone.bind fun _ _ _ _ => .look fun _ _ => takes_pure fun _ _ => rfl

theorem parses_optional (name : String)
    (hdefault : (Phrase.expr .assign).Parses kinds) :
    Phrase.param.Parses (.ident name :: .mark .assign :: kinds) := by
  intro depth around base more hmore
  refine .look fun _ _ => .eat rfl rfl nofun (fun rest hrest => by cases hrest)
    fun _ => .expectIdent (fun _ => ⟨name, rfl⟩) fun found last hlast => ?_
  obtain ⟨-, rfl⟩ := List.cons.inj hlast
  have hsome : Takes around base (default? (grammar depth))
      (.mark .assign :: (kinds ++ more)) more fun _ _ => True := by
    refine .eat rfl rfl nofun (fun rest hrest => ?_) fun hne => absurd rfl hne
    obtain ⟨-, rfl⟩ := List.cons.inj hrest
    exact (parses_expr hdefault depth around base more hmore.joint?).bind
      fun _ _ _ _ => takes_pure fun _ _ => trivial
  exact hsome.bind fun _ _ _ _ => .look fun _ _ => takes_pure fun _ _ => rfl

theorem parses_noParam : Phrase.params.Parses [] := by
  intro depth around base more rounds place hmore
  cases rounds with
  | zero => exact runs_exhausted
  | succ rounds =>
      refine .check ?_
      rw [List.nil_append, (TokenKind.sameVariant_mark_iff _ _).mpr hmore]
      exact takes_pure fun _ _ => trivial

/-- The last parameter, in front of the close. -/
theorem parses_onlyParam {depth rounds : Nat} {around : Surroundings}
    {base : Program} {place : Span} {more : List TokenKind}
    (hopen : firstOf (kinds ++ more) ≠ .mark .closeParen)
    (hparam : Takes around base (param (grammar depth)) (kinds ++ more) more
      fun _ _ => True)
    (hmore : firstOf more = .mark .closeParen) :
    Takes around base (paramsFrom (grammar depth) place rounds) (kinds ++ more)
      more fun _ _ => True := by
  cases rounds with
  | zero => exact runs_exhausted
  | succ rounds =>
      refine .check ?_
      rw [TokenKind.sameVariant_mark hopen]
      refine hparam.bind fun program first _ _ => .check ?_
      simp only [(TokenKind.sameVariant_mark_iff _ _).mpr hmore, Bool.not_true,
        Bool.and_false, Bool.false_eq_true, if_false]
      refine .eat rfl rfl nofun (fun rest hrest => ?_) fun _ => ?_
      · rw [hrest] at hmore
        cases hmore
      · exact (parses_noParam depth around program more rounds place hmore).bind
          fun _ _ _ _ => takes_pure fun _ _ => trivial

theorem parses_rest (name : String) :
    Phrase.params.Parses [.mark .ellipsis, .ident name] := by
  intro depth around base more rounds place hmore
  refine parses_onlyParam nofun ?_ hmore
  refine .look fun _ _ => .eat rfl rfl nofun (fun rest hrest => ?_)
    fun hne => absurd rfl hne
  obtain ⟨-, rfl⟩ := List.cons.inj hrest
  refine .expectIdent (fun _ => ⟨name, rfl⟩) fun found last hlast => ?_
  obtain ⟨-, rfl⟩ := List.cons.inj hlast
  simp only [if_true, Step.pure_bind]
  exact .look fun _ _ => takes_pure fun _ _ => trivial

theorem param_ne_close (hstarts : Phrase.param.Starts kinds)
    (more : List TokenKind) :
    firstOf (kinds ++ more) ≠ .mark .closeParen := by
  obtain ⟨name, hname⟩ := hstarts
  rw [firstOf_append (by rintro rfl; cases hname), hname]
  nofun

theorem parses_lastParam (hparam : Phrase.param.Parses kinds)
    (hstarts : Phrase.param.Starts kinds) : Phrase.params.Parses kinds := by
  intro depth around base more rounds place hmore
  have hcloses : ClosesItem (firstOf more) := .inr (.inl hmore)
  exact parses_onlyParam (param_ne_close hstarts more)
    ((hparam depth around base more hcloses).mono
      fun _ _ _ _ ⟨hafter, _⟩ => ⟨hafter, trivial⟩) hmore

theorem parses_nextParam (hparam : Phrase.param.Parses kinds)
    (hstarts : Phrase.param.Starts kinds)
    (hothers : Phrase.params.Parses others) :
    Phrase.params.Parses (kinds ++ .mark .comma :: others) := by
  intro depth around base more rounds place hmore
  rw [List.append_assoc, List.cons_append]
  cases rounds with
  | zero => exact runs_exhausted
  | succ rounds =>
      refine .check ?_
      rw [TokenKind.sameVariant_mark (param_ne_close hstarts _)]
      refine (hparam depth around base _ (.inl rfl)).bind
        fun program first _ hfirst => .check ?_
      simp only [hfirst, Bool.false_and, Bool.false_eq_true, if_false]
      refine .eat rfl rfl nofun (fun rest hrest => ?_) fun hne => absurd rfl hne
      obtain ⟨-, rfl⟩ := List.cons.inj hrest
      exact (hothers depth around program more rounds place hmore).bind
        fun _ _ _ _ => takes_pure fun _ _ => trivial

end Lists

section Assignments

variable {target value : List TokenKind}

/-- A target is read by all rules that are tighter than assignment. -/
theorem parses_target (htarget : Target .uniform target) :
    (Phrase.expr .or).Parses target := by
  obtain ⟨hlead, hne, -, -⟩ := htarget.starts
  have hleads := TokenKind.leads_of_suffix hlead
  have hchain : ∀ {level : Precedence}, level.chains = true →
      (Phrase.expr level.tighter).Parses target →
      (Phrase.expr level).Parses target := by
    intro level hchains htight
    have hparses := parses_chain hchains htight hne parses_noOperand .noOperand
    rwa [List.append_nil] at hparses
  have hatom : Phrase.atom.Parses target := by
    cases htarget with
    | ident name => exact parses_name name
    | badge key hkey => exact parses_badge hkey
    | wrapped _ hwraps => cases hwraps
  have hsuffix : (Phrase.expr .suffix).Parses target := by
    have hparses := parses_suffixed hatom hne parses_noSuffix .noSuffix
    rwa [List.append_nil] at hparses
  have hsign : (Phrase.expr .sign).Parses target :=
    parses_plain rfl hsuffix (hleads _)
  have hproduct : (Phrase.expr .product).Parses target := hchain rfl hsign
  have hsum : (Phrase.expr .sum).Parses target := hchain rfl hproduct
  have hcompose : (Phrase.expr .compose).Parses target := hchain rfl hsum
  have hrelation : (Phrase.expr .relation).Parses target :=
    parses_plain rfl hcompose (hleads _)
  have hnot : (Phrase.expr .not).Parses target :=
    parses_plain rfl hrelation (hleads _)
  have hand : (Phrase.expr .and).Parses target := hchain rfl hnot
  exact hchain rfl hand

theorem parses_assign (htarget : Target .uniform target)
    (hvalue : (Phrase.expr .assign).Parses value) :
    (Phrase.expr .assign).Parses (target ++ .mark .assign :: value) := by
  intro depth around base more hends
  rw [List.append_assoc, List.cons_append]
  have hmore : (firstOf more).joint? = none := by
    cases hjoint : (firstOf more).joint? with
    | none => rfl
    | some joint => exact absurd (hends joint hjoint) (Nat.not_lt_zero _)
  obtain ⟨-, hne, -, -⟩ := htarget.starts
  refine takes_of_hasExpr ?_ fun hall =>
    nomatch hall.eq_nil_of_append hne (.inr rfl)
  have hassign : Precedence.or.Ends
      (firstOf (.mark .assign :: (value ++ more))) := by
    rintro joint ⟨⟩
    decide
  refine (parses_target htarget depth around base _ hassign).bind
    fun program left _ hleft => .check (.row hleft fun row hrow => ?_)
  obtain ⟨key, hkey⟩ := Option.isSome_iff_exists.mp (hrow htarget)
  rw [hkey]
  refine .step rfl nofun fun _ _ => ?_
  exact (parses_expr hvalue depth around program more hmore).bind
    fun _ _ _ hid => .spanOf hid.hasExpr fun _ => takes_addExpr

end Assignments

end ChainScript
