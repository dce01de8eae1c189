import ChainScript.Proofs.ReadEntries

/-
Expressions are read back from their texts, form by form.

Each form is read by the rule of its own precedence.  All looser rules read it
then too, and in parentheses the tightest one does.
-/

namespace ChainScript

open Parse
open TokenKind (ne_eof ne_newline)

section Operands

variable {depth : Nat} {setting : Setting} {base : Program}
  {grammar : Grammar} {before middle more : List Token}
  {tree other left right : Tree .expr} {required : Precedence}

theorem reaches_atom
    (hatom : Accepts setting base (atom grammar) before more tree.Stands) :
    Reaches .suffix grammar setting base before more tree :=
  reaches_of_operand rfl hatom

/-- What is read at its own precedence is read as an operand everywhere, in
parentheses where they are needed. -/
theorem Tree.ReadsAlone.readsOperand (htree : tree.ReadsAlone) :
    tree.ReadsOperand := by
  intro depth setting base required more hlength hprecedes hsettles
  by_cases hlooser : tree.precedence.rank < required.rank
  · have hoperand : tree.operand required more =
        .of (.mark .openParen) ::
          tree.write (.of (.mark .closeParen) :: more) := by
      simp [Tree.operand, enclosed, hlooser]
    rw [hoperand] at hlength ⊢
    have hgroup : Accepts setting base (atom (ChainScript.grammar depth))
        (.of (.mark .openParen) :: tree.write (.of (.mark .closeParen) :: more))
        more tree.Stands := by
      apply passes_kind.andThen
      rintro _ rfl
      exact accepts_group htree.readsValue (Nat.le_of_succ_le_succ hlength)
        hsettles
    exact (reaches_atom hgroup).loosen required.rank_le_suffix hprecedes
      (TokenKind.leads_of_suffix rfl _)
  · have hoperand : tree.operand required more = tree.write more := by
      simp [Tree.operand, enclosed, hlooser]
    rw [hoperand] at hlength ⊢
    have hrank := Nat.le_of_not_lt hlooser
    exact (htree depth setting base more hlength (hprecedes.tighten hrank)
      hsettles).loosen hrank hprecedes (tree.leads more)

/-- The texts of literals and names. -/
theorem accepts_simple {kind : TokenKind} {form : ExprKind}
    (hsimple : simple? kind = some form)
    (hat : ∀ program, tree.At program form) (hsettles : setting.Settles more) :
    Accepts setting base (atom grammar) (.of kind :: more) more
      tree.Stands := by
  apply passes_kind.andThen
  rintro _ rfl
  split
  · cases hsimple
  · cases hsimple
  · cases hsimple
  · cases hsimple
  · simp only [hsimple]
    refine Passes.andThen (passes_advance ?_ hsettles) ?_
    · rintro rfl
      cases hsimple
    · rintro token _
      exact accepts_addExpr _ (hat base)

theorem accepts_badge {key : WrittenKey} (hsettles : setting.Settles more) :
    Accepts setting base (atom grammar)
      (.of (.mark .badge) :: .of key.key.token :: more) more
      (Tree.badge key).Stands := by
  have hkind : ∀ {other : TokenKind}, other.lead? = none →
      key.key.token ≠ other :=
    (TokenKind.leads_of_suffix key.key.lead?_token .suffix).ne
  apply passes_kind.andThen
  rintro _ rfl
  refine Passes.andThen (passes_advance (ne_eof rfl) fun _ => hkind rfl) ?_
  rintro first _
  apply passes_current.andThen
  rintro current hcurrent
  rw [hcurrent, Token.kind_of, keyOf?_token key.spelled]
  refine Passes.andThen (passes_advance (hkind rfl) hsettles) ?_
  rintro second _
  exact accepts_addExpr _ rfl

/-- An operator that groups to the left, and its right operand. -/
theorem Reaches.joined {kind : TokenKind}
    {join : ExprId → ExprId → ExprKind}
    (hleft : Reaches required grammar setting base before (.of kind :: middle)
      left)
    (hjoin : required.joiner kind = some join)
    (hright : ∀ base, Accepts setting base (required.tighter.rule grammar)
      middle more right.Stands)
    (hat : ∀ program one two, left.Stands program one →
      right.Stands program two → tree.At program (join one two))
    (hsettles : setting.Settles middle) (hlonger : more.length ≤ middle.length) :
    Reaches required grammar setting base before more tree := by
  apply hleft.next
  intro program one rounds _ hone hrounds
  rw [Precedence.goesOn_of_joiner grammar hjoin]
  apply passes_kind.andThen
  intro found hfound
  rw [hfound.trans (firstKind_cons _ _), Token.kind_of, hjoin]
  refine Passes.andThen (passes_advance ?_ hsettles) ?_
  · rintro rfl
    cases Precedence.joint?_of_joiner hjoin
  rintro _ _
  apply (hright program).bind
  intro second two hgrows htwo
  have hboth := hat second one two (hone.grows hgrows) htwo
  refine Continues.bind (Continues.spanOf (hone.grows hgrows).hasExpr fun _ =>
    Continues.spanOf htwo.hasExpr fun _ => accepts_addExpr _ hboth) ?_
  intro third id _ hstands
  rw [← Precedence.goesOn_of_joiner grammar hjoin]
  exact comesTo_goesOn (by simp at hrounds; omega) hstands

/-- A call, a member or an index of an expression. -/
theorem Reaches.suffixed {kind : TokenKind} {op : ExprId → Parse ExprId}
    (hreaches : Reaches .suffix grammar setting base before
      (.of kind :: middle) tree)
    (hop : Precedence.suffix? grammar kind = some op)
    (haccepts : ∀ program id, tree.Stands program id →
      Accepts setting program (op id) (.of kind :: middle) more other.Stands)
    (hshorter : more.length ≤ middle.length) :
    Reaches .suffix grammar setting base before more other := by
  apply hreaches.next
  intro program id rounds _ hstands hrounds
  change ComesTo _ _ _ _ (postfixFrom grammar (rounds + 1) id) _ _ _
  rw [Precedence.postfixFrom_succ]
  apply passes_kind.andThen
  intro found hfound
  rw [hfound.trans (firstKind_cons _ _), Token.kind_of, hop]
  apply (haccepts program id hstands).bind
  intro after whole _ hwhole
  have hless : more.length < rounds := by
    simp only [List.length_cons] at hrounds
    omega
  exact (comesTo_goesOn hless hwhole : ComesTo .suffix _ _ _ _ _ _ _)

theorem accepts_member {receiver : Tree .expr} {key : WrittenKey} {id : ExprId}
    (hreceiver : receiver.Stands base id) (hsettles : setting.Settles more) :
    Accepts setting base (member id)
      (.of (.mark .dot) :: .of key.key.memberToken :: more) more
      (Tree.member receiver key).Stands := by
  have hkind : key.key.memberToken ≠ .newline ∧
      key.key.memberToken ≠ .eof := by
    cases key.key <;> exact ⟨ne_newline rfl, ne_eof rfl⟩
  apply Accepts.within
  refine Passes.andThen (passes_advance (ne_eof rfl) fun _ => hkind.1) ?_
  rintro _ _
  apply passes_current.andThen
  rintro current hcurrent
  rw [hcurrent]
  obtain ⟨key, hspelled⟩ := key
  cases key with
  | badge label =>
      refine Passes.andThen (passes_advance (ne_eof rfl) hsettles) ?_
      rintro _ _
      exact Continues.spanOf hreceiver.hasExpr fun _ =>
        accepts_addExpr _ ⟨id, rfl, hreceiver⟩
  | index position =>
      simp only [Token.kind_of, Key.memberToken, nonneg_toInt64 hspelled,
        if_true]
      refine Passes.andThen (passes_advance (ne_eof rfl) hsettles) ?_
      rintro _ _
      exact Continues.spanOf hreceiver.hasExpr fun _ =>
        accepts_addExpr _ ⟨id, by simp, hreceiver⟩

theorem accepts_index {receiver key : Tree .expr} {id : ExprId}
    (hreceiver : receiver.Stands base id) (hkey : key.ReadsValue)
    (hlength : (key.write (.of (.mark .closeBracket) :: more)).length ≤ depth)
    (hsettles : setting.Settles more) :
    Accepts setting base (index (ChainScript.grammar depth) id)
      (.of (.mark .openBracket) :: key.write (.of (.mark .closeBracket) :: more))
      more (Tree.index receiver key).Stands := by
  apply Accepts.within
  apply (passes_place _).andThen
  intro place _
  have hregion : Accepts setting base
      (inRegion false do
        let _ ← advance
        ChainScript.grammar depth .expr)
      (.of (.mark .openBracket) :: key.write (.of (.mark .closeBracket) :: more))
      (.of (.mark .closeBracket) :: more) key.Stands := by
    refine Accepts.inRegion ?_ fun _ => ne_newline rfl
    refine Passes.andThen
      (passes_advance (ne_eof rfl) (settles_of_leads (key.leads _))) ?_
    rintro _ _
    exact hkey.expr hlength rfl fun _ => ne_newline rfl
  apply hregion.bind
  intro program position hgrows hposition
  apply (passes_check _).andThen
  rintro _ rfl
  rw [if_pos (by simp [TokenKind.sameVariant])]
  refine Passes.andThen (passes_advance (ne_eof rfl) hsettles) ?_
  rintro last _
  exact Continues.spanOf (hreceiver.grows hgrows).hasExpr fun _ =>
    accepts_addExpr _
      ⟨id, position, rfl, hreceiver.grows hgrows, hposition⟩

theorem accepts_call {callee : Tree .expr} {arguments : Tree .entries}
    {id : ExprId} (hcallee : callee.Stands base id)
    (harguments : arguments.ReadsEntries)
    (hlength : (arguments.write (closing arguments.isSingle .closeParen
      more)).length ≤ depth) (hsettles : setting.Settles more) :
    Accepts setting base (call (ChainScript.grammar depth) id)
      (.of (.mark .openParen) ::
        arguments.write (closing arguments.isSingle .closeParen more)) more
      (Tree.call callee arguments).Stands := by
  apply Accepts.within
  apply (accepts_delimited harguments (by decide) (.inl rfl)
    arguments.not_isSingle hlength hsettles).bind
  rintro program ⟨rows, comma, span⟩ hgrows ⟨hat, _⟩
  apply (accepts_addEntries hat).bind
  intro after range hmore hrange
  have hstill := (hcallee.grows hgrows).grows hmore
  exact Continues.spanOf hstill.hasExpr fun _ =>
    accepts_addExpr _ ⟨id, range, rfl, hstill, hrange⟩

end Operands

section Forms

variable {tree value operand left right : Tree .expr} {op : BinaryOp}

theorem readsAlone_simple {kind : TokenKind} {form : ExprKind}
    (hwrite : ∀ more, tree.write more = .of kind :: more)
    (hsuffix : tree.precedence = .suffix) (hsimple : simple? kind = some form)
    (hat : ∀ program, tree.At program form) : tree.ReadsAlone := by
  intro depth setting base more _ _ hsettles
  rw [hwrite, hsuffix]
  exact reaches_atom (accepts_simple hsimple hat hsettles)

theorem readsAlone_ident (name : String) : (Tree.ident name).ReadsAlone :=
  readsAlone_simple (fun _ => rfl) rfl rfl fun _ => rfl

theorem readsAlone_badge {key : WrittenKey} : (Tree.badge key).ReadsAlone :=
  fun _ _ _ _ _ _ hsettles => reaches_atom (accepts_badge hsettles)

theorem readsAlone_array {entries : Tree .entries}
    (hentries : entries.ReadsEntries) : (Tree.array entries).ReadsAlone := by
  intro depth setting base more hlength _ hsettles
  apply reaches_atom
  apply passes_kind.andThen
  rintro _ rfl
  apply Accepts.within
  have hlist : Accepts setting base
      (delimited (grammar depth) (.mark .openBracket) (.mark .closeBracket))
      (.of (.mark .openBracket) ::
        entries.write (closing false .closeBracket more)) more _ :=
    accepts_delimited hentries (by decide) (.inr rfl) (fun _ => rfl)
      (Nat.le_of_succ_le_succ hlength) hsettles
  apply hlist.bind
  rintro program ⟨rows, comma, span⟩ _ ⟨hat, _⟩
  apply (accepts_addEntries hat).bind
  intro after range _ hrange
  exact accepts_addExpr span ⟨range, rfl, hrange⟩

theorem readsAlone_args {entries : Tree .entries}
    (hentries : entries.ReadsEntries) : (Tree.args entries).ReadsAlone := by
  intro depth setting base more hlength _ hsettles
  apply reaches_atom
  apply passes_kind.andThen
  rintro _ rfl
  exact accepts_arguments hentries (Nat.le_of_succ_le_succ hlength) hsettles

/-- The joiner of a binary operator that groups to the left. -/
theorem joiner_token (hrelation : op.precedence ≠ .relation) :
    op.precedence.joiner op.token = some (ExprKind.binary op) := by
  cases op <;> first | rfl | exact absurd rfl hrelation

/-- What ends a binary expression ends its right operand. -/
theorem Precedence.Precedes.ends_tighter {required : Precedence}
    {kind : TokenKind} (hprecedes : required.Precedes kind)
    (hne : required ≠ .suffix) : required.tighter.Ends kind :=
  hprecedes.ends (by rw [Precedence.rank_tighter hne]; exact Nat.lt_succ_self _)

/-- Two operands of an operator that groups to the left. -/
theorem reaches_operands {required : Precedence} {kind : TokenKind}
    {join : ExprId → ExprId → ExprKind} (hleft : left.ReadsOperand)
    (hright : right.ReadsOperand)
    (hjoin : required.joiner kind = some join)
    (hat : ∀ program one two, left.Stands program one →
      right.Stands program two → tree.At program (join one two))
    (depth : Nat) (setting : Setting) (base : Program) (more : List Token)
    (hlength : (left.operand required (.of kind ::
      right.operand required.tighter more)).length ≤ depth + 1)
    (hprecedes : required.Precedes (firstKind more))
    (hsettles : setting.Settles more) :
    Reaches required (grammar depth) setting base
      (left.operand required (.of kind :: right.operand required.tighter more))
      more tree := by
  have hjoint := Precedence.joint?_of_joiner hjoin
  have hgroups : required.groups = true ∧ required ≠ .suffix := by
    cases required <;> first | cases hjoin | exact ⟨rfl, by decide⟩
  have hmiddle : required.Precedes kind := fun joint hsome =>
    .inr ⟨Option.some.inj (hsome.symm.trans hjoint), hgroups.1⟩
  have hnewline : kind ≠ .newline := by
    rintro rfl
    cases hjoint
  have hends := hprecedes.ends_tighter hgroups.2
  have hlonger := left.longer_operand required
    (.of kind :: right.operand required.tighter more)
  have hmore := right.longer_operand required.tighter more
  simp only [Longer, List.length_cons] at hlonger hmore
  refine (hleft depth setting base required _ hlength hmiddle
    fun _ => hnewline).joined hjoin (fun base => ?_) hat
    (settles_of_leads (right.leads_operand _ _)) (by omega)
  exact (hright depth setting base _ more (by omega) hends.precedes
    hsettles).accepts hends

theorem comparison?_token (hrelation : op.precedence = .relation) :
    comparison? op.token = some op := by
  cases op <;> first | rfl | cases hrelation

/-- Comparisons have tighter operands on both sides. -/
theorem reaches_comparison (hrelation : op.precedence = .relation)
    (hleft : left.ReadsOperand) (hright : right.ReadsOperand) (depth : Nat)
    (setting : Setting) (base : Program) (more : List Token)
    (hlength : (left.operand .compose (.of op.token ::
      right.operand .compose more)).length ≤ depth + 1)
    (hprecedes : Precedence.relation.Precedes (firstKind more))
    (hsettles : setting.Settles more) :
    Reaches .relation (grammar depth) setting base
      (left.operand .compose (.of op.token :: right.operand .compose more)) more
      (.binary op left right) := by
  have hkind : op.token ≠ .newline ∧ op.token ≠ .eof := by
    cases op <;> decide
  have hmiddle : Precedence.compose.Ends op.token := by
    intro joint hjoint
    rw [op.joint?_token, hrelation] at hjoint
    cases hjoint
    decide
  have hends : Precedence.compose.Ends (firstKind more) :=
    hprecedes.ends_tighter (by decide)
  have hlonger := left.longer_operand .compose
    (.of op.token :: right.operand .compose more)
  simp only [Longer, List.length_cons] at hlonger
  apply reaches_of_accepts rfl
  apply ((hleft depth setting base .compose _ hlength hmiddle.precedes
    fun _ => hkind.1).accepts hmiddle).bind
  intro first one _ hone
  apply passes_kind.andThen
  intro found hfound
  rw [hfound.trans (firstKind_cons _ _), Token.kind_of,
    comparison?_token hrelation]
  refine Passes.andThen (passes_advance hkind.2
    (settles_of_leads (right.leads_operand _ _))) ?_
  rintro _ _
  apply ((hright depth setting first .compose more (by omega) hends.precedes
    hsettles).accepts hends).bind
  intro second two hgrows htwo
  apply passes_kind.andThen
  rintro _ rfl
  rw [hprecedes.comparison?, if_neg (by simp)]
  exact Continues.spanOf (hone.grows hgrows).hasExpr fun _ =>
    Continues.spanOf htwo.hasExpr fun _ =>
      accepts_addExpr _ ⟨one, two, rfl, hone.grows hgrows, htwo⟩

theorem readsAlone_binary (hleft : left.ReadsOperand)
    (hright : right.ReadsOperand) :
    (Tree.binary op left right).ReadsAlone := by
  intro depth setting base more hlength hprecedes hsettles
  change Reaches op.precedence _ _ _ (left.operand op.leftPrecedence
    (.of op.token :: right.operand op.precedence.tighter more)) more _
  change (left.operand op.leftPrecedence (.of op.token ::
    right.operand op.precedence.tighter more)).length ≤ depth + 1 at hlength
  change op.precedence.Precedes (firstKind more) at hprecedes
  by_cases hrelation : op.precedence = .relation
  · have hcompose : op.leftPrecedence = .compose := by
      simp [BinaryOp.leftPrecedence, hrelation]
    rw [hcompose, hrelation] at hlength ⊢
    rw [hrelation] at hprecedes
    exact reaches_comparison hrelation hleft hright depth setting base more
      hlength hprecedes hsettles
  · have hsame : op.leftPrecedence = op.precedence := by
      simp [BinaryOp.leftPrecedence, hrelation]
    have hat : ∀ program one two, left.Stands program one →
        right.Stands program two →
        (Tree.binary op left right).At program (.binary op one two) :=
      fun _ one two hone htwo => ⟨one, two, rfl, hone, htwo⟩
    rw [hsame] at hlength ⊢
    exact reaches_operands hleft hright (joiner_token hrelation) hat depth
      setting base more hlength hprecedes hsettles

theorem readsAlone_compose (hleft : left.ReadsOperand)
    (hright : right.ReadsOperand) : (Tree.compose left right).ReadsAlone := by
  intro depth setting base more hlength hprecedes hsettles
  have hjoin : Precedence.compose.joiner (.mark .ampersand) = some .compose :=
    rfl
  have hat : ∀ program one two, left.Stands program one →
      right.Stands program two →
      (Tree.compose left right).At program (.compose one two) :=
    fun _ one two hone htwo => ⟨one, two, rfl, hone, htwo⟩
  exact reaches_operands hleft hright hjoin hat depth setting base more hlength
    hprecedes hsettles

theorem readsAlone_unary {op : UnaryOp} (hoperand : operand.ReadsOperand) :
    (Tree.unary op operand).ReadsAlone := by
  intro depth setting base more hlength hprecedes hsettles
  change (Token.of op.token ::
    operand.operand op.precedence more).length ≤ depth + 1 at hlength
  change op.precedence.Precedes (firstKind more) at hprecedes
  have hgroups : op.precedence.groups = false := by
    cases op <;> rfl
  have hends := hprecedes.ends_of_not_groups hgroups
  have hfirst : setting.Settles (operand.operand op.precedence more) :=
    settles_of_leads (operand.leads_operand _ _)
  have hlonger := operand.longer_operand op.precedence more
  simp only [Longer, List.length_cons] at hlonger hlength
  obtain _ | depth := depth
  · omega
  have haccepts := fun base => (hoperand depth setting base op.precedence more
    (by omega) hprecedes hsettles).accepts hends
  have hat : ∀ program id, operand.Stands program id →
      (Tree.unary op operand).At program (.unary op id) :=
    fun _ id hstands => ⟨id, rfl, hstands⟩
  apply reaches_of_accepts hgroups
  cases op with
  | neg | plus =>
      apply passes_kind.andThen
      rintro _ rfl
      refine Passes.andThen (passes_advance (ne_eof rfl) hfirst) ?_
      rintro start _
      apply (haccepts base).bind
      intro program id _ hstands
      exact Continues.spanOf hstands.hasExpr fun _ =>
        accepts_addExpr _ (hat program id hstands)
  | not =>
      apply (passes_check _).andThen
      rintro _ rfl
      refine Passes.andThen (passes_advance (ne_eof rfl) hfirst) ?_
      rintro start _
      apply (haccepts base).bind
      intro program id _ hstands
      exact Continues.spanOf hstands.hasExpr fun _ =>
        accepts_addExpr _ (hat program id hstands)

/-- The text of a target is read as an expression that denotes its key. -/
theorem accepts_target {key : WrittenKey} (depth : Nat) (setting : Setting)
    (base : Program) (more : List Token)
    (hlength : (key.key.writeTarget
      (.of (.mark .assign) :: more)).length ≤ depth + 1) :
    Accepts setting base (orExpr (grammar depth))
      (key.key.writeTarget (.of (.mark .assign) :: more))
      (.of (.mark .assign) :: more)
      fun program id => program.ExprIs id fun form =>
        target? form = some key.key := by
  have hends : Precedence.or.Ends (.mark .assign) := by
    rintro joint ⟨⟩
    decide
  by_cases hname : ∃ name, key.key.token = .ident name
  · obtain ⟨name, hname⟩ := hname
    have hkey := keyOf?_token key.spelled
    simp only [Key.writeTarget, hname] at hlength hkey ⊢
    apply ((readsAlone_ident name).accepts Precedence.or.rank_le_suffix
      hlength hends fun _ => ne_newline rfl).mono
    intro program id _ hstands
    exact Program.ExprIs.grows (.refl _) hstands fun _ hform => by
      rw [hform]
      exact hkey
  · have hwrite : key.key.writeTarget (.of (.mark .assign) :: more) =
        (Tree.badge key).write (.of (.mark .assign) :: more) := by
      unfold Key.writeTarget
      split
      · next name hkind => exact absurd ⟨name, hkind⟩ hname
      · rfl
    rw [hwrite] at hlength ⊢
    apply (readsAlone_badge.accepts Precedence.or.rank_le_suffix hlength hends
      fun _ => ne_newline rfl).mono
    intro program id _ hstands
    exact Program.ExprIs.grows (.refl _) hstands fun _ hform => by
      rw [hform]
      rfl

theorem readsAlone_assign {target : WrittenKey} (hvalue : value.ReadsValue) :
    (Tree.assign target value).ReadsAlone := by
  intro depth setting base more hlength hprecedes hsettles
  change (target.key.writeTarget
    (.of (.mark .assign) :: value.write more)).length ≤ depth + 1 at hlength
  have hends : Precedence.assign.Ends (firstKind more) :=
    hprecedes.ends_of_not_groups rfl
  have hjoint : (firstKind more).joint? = none := by
    cases hjoint : (firstKind more).joint? with
    | none => rfl
    | some joint => exact absurd (hends joint hjoint) (Nat.not_lt_zero _)
  have hlonger := target.key.longer_writeTarget
    (.of (.mark .assign) :: value.write more)
  simp only [Longer, List.length_cons] at hlonger
  apply reaches_of_accepts rfl
  apply (accepts_target depth setting base (value.write more) hlength).bind
  intro first id _ htarget
  apply (passes_check _).andThen
  rintro _ rfl
  apply Continues.row htarget
  intro row hrow
  rw [hrow]
  refine Passes.andThen
    (passes_advance (ne_eof rfl) (settles_of_leads (value.leads more))) ?_
  rintro _ _
  apply (hvalue.expr (by omega) hjoint hsettles).bind
  intro second other _ hstands
  exact Continues.spanOf hstands.hasExpr fun _ =>
    accepts_addExpr _ ⟨other, rfl, hstands⟩

/-- A suffix takes what comes before it for its operand. -/
theorem precedes_suffix {kind : TokenKind}
    (hjoint : kind.joint? = some .suffix) :
    Precedence.suffix.Precedes kind :=
  fun _ hsome => .inr ⟨Option.some.inj (hsome.symm.trans hjoint), rfl⟩

theorem readsAlone_member {receiver : Tree .expr} {key : WrittenKey}
    (hreceiver : receiver.ReadsOperand) :
    (Tree.member receiver key).ReadsAlone := by
  intro depth setting base more hlength _ hsettles
  exact (hreceiver depth setting base .suffix _ hlength (precedes_suffix rfl)
    fun _ => ne_newline rfl).suffixed rfl
      (fun _ _ hstands => accepts_member hstands hsettles) (Nat.le_succ _)

theorem readsAlone_index {receiver key : Tree .expr}
    (hreceiver : receiver.ReadsOperand) (hkey : key.ReadsValue) :
    (Tree.index receiver key).ReadsAlone := by
  intro depth setting base more hlength _ hsettles
  have hlonger := receiver.longer_operand .suffix (.of (.mark .openBracket) ::
    key.write (.of (.mark .closeBracket) :: more))
  have hinner := key.longer_write (.of (.mark .closeBracket) :: more)
  have hdepth := Nat.le_trans hlonger hlength
  simp only [Longer, List.length_cons] at hinner hdepth
  exact (hreceiver depth setting base .suffix _ hlength (precedes_suffix rfl)
    fun _ => ne_newline rfl).suffixed rfl
      (fun _ _ hstands => accepts_index hstands hkey (by omega) hsettles)
      (by omega)

theorem readsAlone_call {callee : Tree .expr} {arguments : Tree .entries}
    (hcallee : callee.ReadsOperand) (harguments : arguments.ReadsEntries) :
    (Tree.call callee arguments).ReadsAlone := by
  intro depth setting base more hlength _ hsettles
  have hlonger := callee.longer_operand .suffix (.of (.mark .openParen) ::
    arguments.write (closing arguments.isSingle .closeParen more))
  have hinner := (((longer_refl more).cons (.of (.mark .closeParen))).preceded
    arguments.isSingle (.mark .comma)).trans (arguments.longer_write _)
  have hdepth := Nat.le_trans hlonger hlength
  simp only [Longer, List.length_cons] at hinner hdepth
  exact (hcallee depth setting base .suffix _ hlength (precedes_suffix rfl)
    fun _ => ne_newline rfl).suffixed rfl
      (fun _ _ hstands => accepts_call hstands harguments (by omega) hsettles)
      (by omega)

end Forms

end ChainScript
