import ChainScript.Proofs.Acceptance
import ChainScript.Proofs.FirstTokens

/-
The rules for expressions, by precedence.

The rule of each precedence reads an operand that binds more tightly and then
goes on, if it groups to the left, as long as there are operators of its
precedence.  An operand in front of more operators is read when the rule has
come to the place from which it goes on.  So an expression of some precedence is
also read by the rules of all looser ones, if the token after it ends it.
-/

namespace ChainScript

open Parse

namespace Precedence

/-- The operators of a precedence that groups to the left. -/
def joiner : Precedence → Joiner
  | .or => binaryJoiner (logical? .orKw .or)
  | .and => binaryJoiner (logical? .andKw .and)
  | .compose => composeJoiner
  | .sum => binaryJoiner sum?
  | .product => binaryJoiner product?
  | _ => fun _ => none

/-- Expressions of the precedence group to the left. -/
def groups : Precedence → Bool
  | .or | .and | .compose | .sum | .product | .suffix => true
  | _ => false

section Rules

variable (grammar : Grammar)

def rule : Precedence → Parse ExprId
  | .assign => assignExpr grammar
  | .or => orExpr grammar
  | .and => andExpr grammar
  | .not => notExpr grammar
  | .relation => relationExpr grammar
  | .compose => composeExpr grammar
  | .sum => sumExpr grammar
  | .product => productExpr grammar
  | .sign => signExpr grammar
  | .suffix => postfixExpr grammar

/-- What a rule that groups to the left reads first. -/
def operandRule : Precedence → Parse ExprId
  | .suffix => atom grammar
  | required => required.tighter.rule grammar

/-- How a rule goes on after its first operand. -/
def goesOn : Precedence → Nat → ExprId → Parse ExprId
  | .or => chainFrom Precedence.or.joiner (andExpr grammar)
  | .and => chainFrom Precedence.and.joiner (notExpr grammar)
  | .compose => chainFrom Precedence.compose.joiner (sumExpr grammar)
  | .sum => chainFrom Precedence.sum.joiner (productExpr grammar)
  | .product => chainFrom Precedence.product.joiner (signExpr grammar)
  | .suffix => postfixFrom grammar
  | _ => fun _ first => pure first

theorem rule_of_groups {required : Precedence}
    (hgroups : required.groups = true) :
    required.rule grammar = (do
      let first ← required.operandRule grammar
      required.goesOn grammar (← rounds) first) := by
  cases required <;> first | rfl | cases hgroups

theorem goesOn_of_not_groups {required : Precedence}
    (hgroups : required.groups = false) (rounds : Nat) (first : ExprId) :
    required.goesOn grammar rounds first = pure first := by
  cases required <;> first | rfl | cases hgroups

/-- What a token after an expression asks for at the tightest precedence. -/
def suffix? : TokenKind → Option (ExprId → Parse ExprId)
  | .mark .openParen => some (call grammar)
  | .mark .dot => some member
  | .mark .openBracket => some (index grammar)
  | _ => none

theorem postfixFrom_succ (rounds : Nat) (first : ExprId) :
    postfixFrom grammar (rounds + 1) first = (do
      match suffix? grammar (← kind) with
      | none => return first
      | some op => postfixFrom grammar rounds (← op first)) := by
  have hmatch : ∀ found : TokenKind,
      (match found with
        | .mark .openParen => do postfixFrom grammar rounds (← call grammar first)
        | .mark .dot => do postfixFrom grammar rounds (← member first)
        | .mark .openBracket => do
            postfixFrom grammar rounds (← index grammar first)
        | _ => return first) =
      (match suffix? grammar found with
        | none => return first
        | some op => do postfixFrom grammar rounds (← op first)) := by
    intro found
    cases found with
    | mark symbol => cases symbol <;> rfl
    | _ => rfl
  exact congrArg (kind >>= ·) (funext hmatch)

end Rules

/-- The token ends expressions of the precedence. -/
def Ends (required : Precedence) (kind : TokenKind) : Prop :=
  ∀ joint, kind.joint? = some joint → joint.rank < required.rank

/-- The token ends expressions of the precedence, or takes them for its left
operand. -/
def Precedes (required : Precedence) (kind : TokenKind) : Prop :=
  ∀ joint, kind.joint? = some joint →
    joint.rank < required.rank ∨ (joint = required ∧ required.groups = true)

theorem ends_of_joint? {kind : TokenKind} (hjoint : kind.joint? = none)
    (required : Precedence) : required.Ends kind :=
  fun _ hsome => nomatch hjoint.symm.trans hsome

theorem Ends.precedes {required : Precedence} {kind : TokenKind}
    (hends : required.Ends kind) : required.Precedes kind :=
  fun joint hjoint => .inl (hends joint hjoint)

theorem Ends.mono {required other : Precedence} {kind : TokenKind}
    (hends : required.Ends kind) (hrank : required.rank ≤ other.rank) :
    other.Ends kind :=
  fun joint hjoint => Nat.lt_of_lt_of_le (hends joint hjoint) hrank

/-- What takes an expression of some precedence for its operand ends tighter
ones. -/
theorem Precedes.ends {required tight : Precedence} {kind : TokenKind}
    (hprecedes : required.Precedes kind) (hrank : required.rank < tight.rank) :
    tight.Ends kind := by
  intro joint hjoint
  rcases hprecedes joint hjoint with hlt | ⟨rfl, _⟩
  · exact Nat.lt_trans hlt hrank
  · exact hrank

theorem Precedes.tighten {required tight : Precedence} {kind : TokenKind}
    (hprecedes : required.Precedes kind) (hrank : required.rank ≤ tight.rank) :
    tight.Precedes kind := by
  rcases Nat.eq_or_lt_of_le hrank with heq | hlt
  · exact eq_of_rank_eq heq ▸ hprecedes
  · exact (hprecedes.ends hlt).precedes

theorem Precedes.ends_of_not_groups {required : Precedence} {kind : TokenKind}
    (hprecedes : required.Precedes kind) (hgroups : required.groups = false) :
    required.Ends kind := by
  intro joint hjoint
  rcases hprecedes joint hjoint with hlt | ⟨_, htrue⟩
  · exact hlt
  · exact nomatch hgroups.symm.trans htrue

theorem joint?_of_joiner {required : Precedence} {kind : TokenKind}
    {join : ExprId → ExprId → ExprKind}
    (hjoin : required.joiner kind = some join) :
    kind.joint? = some required := by
  cases required with
  | or | and =>
      simp only [joiner, binaryJoiner, logical?] at hjoin
      split at hjoin
      · next hkind => rw [hkind]; rfl
      · cases hjoin
  | compose =>
      simp only [joiner, composeJoiner] at hjoin
      split at hjoin
      · next hkind => rw [hkind]; rfl
      · cases hjoin
  | sum =>
      simp only [joiner, binaryJoiner, sum?] at hjoin
      split at hjoin <;> first | rfl | cases hjoin
  | product =>
      simp only [joiner, binaryJoiner, product?] at hjoin
      split at hjoin <;> first | rfl | cases hjoin
  | assign | not | relation | sign | suffix => cases hjoin

theorem Ends.joiner {required : Precedence} {kind : TokenKind}
    (hends : required.Ends kind) : required.joiner kind = none := by
  cases hjoin : required.joiner kind with
  | none => rfl
  | some join => exact absurd (hends _ (joint?_of_joiner hjoin)) (Nat.lt_irrefl _)

theorem goesOn_of_joiner {required : Precedence} {kind : TokenKind}
    {join : ExprId → ExprId → ExprKind} (grammar : Grammar)
    (hjoin : required.joiner kind = some join) :
    required.goesOn grammar =
      chainFrom required.joiner (required.tighter.rule grammar) := by
  cases required <;> first | rfl | cases hjoin

theorem joint?_of_suffix? {grammar : Grammar} {kind : TokenKind}
    {op : ExprId → Parse ExprId} (hop : suffix? grammar kind = some op) :
    kind.joint? = some .suffix := by
  unfold suffix? at hop
  split at hop <;> first | rfl | cases hop

theorem Ends.suffix? {grammar : Grammar} {kind : TokenKind}
    (hends : Precedence.suffix.Ends kind) :
    Precedence.suffix? grammar kind = none := by
  cases hop : Precedence.suffix? grammar kind with
  | none => rfl
  | some op =>
      exact absurd (hends _ (joint?_of_suffix? hop)) (Nat.lt_irrefl _)

/-- Comparisons do not take comparisons for their operands. -/
theorem Precedes.comparison? {kind : TokenKind}
    (hprecedes : Precedence.relation.Precedes kind) :
    Parse.comparison? kind = none := by
  unfold Parse.comparison?
  split <;> first | rfl | simpa [groups] using hprecedes _ rfl

end Precedence

/-- An expression without a sign in front of it starts with none. -/
theorem TokenKind.Leads.sign? {kind : TokenKind}
    (hleads : kind.Leads .suffix) : Parse.sign? kind = none := by
  obtain ⟨lead, hlead, hle⟩ := hleads
  unfold Parse.sign?
  split
  · cases hlead
    exact absurd hle (by decide)
  · cases hlead
    exact absurd hle (by decide)
  · rfl

/-- The expression reads as the tree. -/
abbrev Tree.Stands (tree : Tree .expr) (program : Program) (id : ExprId) :
    Prop :=
  program.ExprIs id (tree.At program)

theorem Tree.Stands.grows {tree : Tree .expr} {older newer : Program}
    {id : ExprId} (hstands : tree.Stands older id)
    (hgrows : older.Grows newer) : tree.Stands newer id :=
  Program.ExprIs.grows hgrows hstands fun _ hat => hat.grows hgrows

section Levels

variable {setting : Setting} {base : Program} {grammar : Grammar}
  {before middle more : List Token} {tree : Tree .expr}
  {required : Precedence}

/-- The parser comes to a place in front of `more` from which the rule for the
precedence goes on with an expression. -/
def ComesTo (required : Precedence) (grammar : Grammar) (setting : Setting)
    (base : Program) (parser : Parse ExprId) (before more : List Token)
    (tree : Tree .expr) : Prop :=
  Continues setting base parser before more
    (fun reached : Nat × ExprId => required.goesOn grammar reached.1 reached.2)
    fun program reached =>
      more.length < reached.1 ∧ tree.Stands program reached.2

/-- The rule for the precedence reads an expression up to `more`. -/
def Reaches (required : Precedence) (grammar : Grammar) (setting : Setting)
    (base : Program) (before more : List Token) (tree : Tree .expr) : Prop :=
  ComesTo required grammar setting base (required.rule grammar) before more tree

theorem comesTo_goesOn {rounds : Nat} {id : ExprId}
    (hrounds : more.length < rounds) (hstands : tree.Stands base id) :
    ComesTo required grammar setting base (required.goesOn grammar rounds id)
      more more tree :=
  fun state hstate hgrows => ⟨(rounds, id), state, rfl, hstate, .refl _,
    hrounds, hstands.grows hgrows⟩

theorem passes_chainFrom {joiner : Joiner} {operand : Parse ExprId}
    {rounds : Nat} {first : ExprId} (hrounds : more.length < rounds)
    (hjoin : joiner (firstKind more) = none) :
    Passes setting (chainFrom joiner operand rounds first) more more
      (· = first) := by
  obtain _ | rounds := rounds
  · cases hrounds
  · apply passes_kind.bind
    rintro _ rfl
    rw [hjoin]
    exact passes_pure rfl

theorem passes_postfixFrom {rounds : Nat} {first : ExprId}
    (hrounds : more.length < rounds)
    (hends : Precedence.suffix.Ends (firstKind more)) :
    Passes setting (postfixFrom grammar rounds first) more more
      (· = first) := by
  obtain _ | rounds := rounds
  · cases hrounds
  · rw [Precedence.postfixFrom_succ]
    apply passes_kind.bind
    rintro _ rfl
    rw [hends.suffix?]
    exact passes_pure rfl

/-- In front of a token that ends the expression, nothing more is read. -/
theorem passes_goesOn {rounds : Nat} {first : ExprId}
    (hrounds : more.length < rounds)
    (hends : required.Ends (firstKind more)) :
    Passes setting (required.goesOn grammar rounds first) more more
      (· = first) := by
  cases required with
  | or | and | compose | sum | product =>
      exact passes_chainFrom hrounds hends.joiner
  | suffix => exact passes_postfixFrom hrounds hends
  | assign | not | relation | sign => exact passes_pure rfl

/-- What the rule reaches, it accepts in front of a token that ends it. -/
theorem Reaches.accepts
    (hreaches : Reaches required grammar setting base before more tree)
    (hends : required.Ends (firstKind more)) :
    Accepts setting base (required.rule grammar) before more tree.Stands := by
  intro state hstate hgrows
  obtain ⟨⟨rounds, first⟩, between, hrun, hmiddle, hmore, hrounds, hstands⟩ :=
    hreaches state hstate hgrows
  obtain ⟨_, final, hlast, hafter, hsame, rfl⟩ :=
    passes_goesOn hrounds hends between hmiddle
  exact ⟨_, final, hrun.trans hlast, hafter, hsame ▸ hmore, hsame ▸ hstands⟩

/-- A rule that groups to the left goes on after its first operand. -/
theorem reaches_of_operand (hgroups : required.groups = true)
    (hoperand : Accepts setting base (required.operandRule grammar) before more
      tree.Stands) :
    Reaches required grammar setting base before more tree := by
  unfold Reaches
  rw [required.rule_of_groups grammar hgroups]
  apply hoperand.bind
  intro program first _ hfirst
  apply passes_rounds.andThen
  rintro _ rfl
  exact comesTo_goesOn (Nat.lt_succ_self _) hfirst

/-- One more round after the place from which a rule goes on. -/
theorem Reaches.next {other : Tree .expr}
    (hreaches : Reaches required grammar setting base before middle tree)
    (hround : ∀ program id rounds, base.Grows program →
      tree.Stands program id → middle.length ≤ rounds →
      ComesTo required grammar setting program
        (required.goesOn grammar (rounds + 1) id) middle more other) :
    Reaches required grammar setting base before more other := by
  unfold Reaches ComesTo at *
  apply hreaches.trans
  rintro program ⟨rounds, id⟩ hgrows ⟨hrounds, hstands⟩
  obtain _ | rounds := rounds
  · cases hrounds
  · exact hround program id rounds hgrows hstands (Nat.le_of_lt_succ hrounds)

/-- Other rules do not go on. -/
theorem reaches_of_accepts (hgroups : required.groups = false)
    (haccepts : Accepts setting base (required.rule grammar) before more
      tree.Stands) :
    Reaches required grammar setting base before more tree := by
  intro state hstate hgrows
  obtain ⟨id, final, hrun, hafter, hmore, hstands⟩ :=
    haccepts state hstate hgrows
  refine ⟨(more.length + 1, id), final, ?_, hafter, hmore,
    Nat.lt_succ_self _, hstands⟩
  exact hrun.trans
    (congrFun (required.goesOn_of_not_groups grammar hgroups _ id).symm final)

/-- An expression that is read at some precedence is read at the next looser
one. -/
theorem Reaches.looser
    (hreaches : Reaches required.tighter grammar setting base before more tree)
    (hne : required ≠ .suffix)
    (hprecedes : required.Precedes (firstKind more))
    (hleads : (firstKind before).Leads required.tighter) :
    Reaches required grammar setting base before more tree := by
  have hrank : required.rank < required.tighter.rank := by
    rw [Precedence.rank_tighter hne]
    exact Nat.lt_succ_self _
  have haccepts := hreaches.accepts (hprecedes.ends hrank)
  cases required with
  | or | and | compose | sum | product => exact reaches_of_operand rfl haccepts
  | assign =>
      apply reaches_of_accepts rfl
      apply haccepts.bind
      intro program id _ hstands
      apply (passes_check _).andThen
      rintro _ rfl
      have hassign : firstKind more ≠ .mark .assign := by
        intro hkind
        rw [hkind] at hprecedes
        simpa [Precedence.groups] using hprecedes _ rfl
      simp only [TokenKind.sameVariant_mark hassign, Bool.false_eq_true,
        if_false]
      exact accepts_pure fun _ hgrows => hstands.grows hgrows
  | not =>
      apply reaches_of_accepts rfl
      apply (passes_check _).andThen
      rintro _ rfl
      have hnot : firstKind before ≠ .keyword .notKw := by
        intro hkind
        obtain ⟨lead, hlead, hle⟩ := hleads
        rw [hkind] at hlead
        cases hlead
        exact absurd hle (by decide)
      simp only [TokenKind.sameVariant_keyword hnot, Bool.false_eq_true,
        if_false]
      exact haccepts
  | relation =>
      apply reaches_of_accepts rfl
      apply haccepts.bind
      intro program id _ hstands
      apply passes_kind.andThen
      rintro _ rfl
      rw [hprecedes.comparison?]
      exact accepts_pure fun _ hgrows => hstands.grows hgrows
  | sign =>
      apply reaches_of_accepts rfl
      apply passes_kind.andThen
      rintro _ rfl
      rw [hleads.sign?]
      exact haccepts
  | suffix => exact absurd rfl hne

/-- An expression that is read at some precedence is read at all looser ones. -/
theorem Reaches.loosen {tight : Precedence}
    (hreaches : Reaches tight grammar setting base before more tree)
    (hrank : required.rank ≤ tight.rank)
    (hprecedes : required.Precedes (firstKind more))
    (hleads : (firstKind before).Leads tight) :
    Reaches required grammar setting base before more tree := by
  obtain ⟨gap, hgap⟩ := Nat.exists_eq_add_of_le hrank
  induction gap generalizing required with
  | zero => exact Precedence.eq_of_rank_eq hgap ▸ hreaches
  | succ gap ih =>
      have hne : required ≠ .suffix := by
        rintro rfl
        have hle := tight.rank_le_suffix
        omega
      have hnext := Precedence.rank_tighter hne
      apply Reaches.looser _ hne hprecedes (hleads.mono (by omega))
      exact ih (by omega) (hprecedes.tighten (by omega)) (by omega)

end Levels

end ChainScript
