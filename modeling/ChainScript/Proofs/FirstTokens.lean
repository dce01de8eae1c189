import ChainScript.Parser.Statement
import ChainScript.Proofs.Printing

/-
With which tokens the texts of trees start.

The first token of an expression tells how tightly the expression binds at
most.  The token after it is the first one after the whole expression, an
operator, or of no consequence; this is what looking ahead depends on where a
key, a function or an assignment of a block may start.
-/

namespace ChainScript

/-- The tightest precedence of the expressions that start with a token. -/
def TokenKind.lead? : TokenKind → Option Precedence
  | .int _ | .float _ | .str _ | .ident _ => some .suffix
  | .keyword .nullKw | .keyword .trueKw | .keyword .falseKw => some .suffix
  | .keyword .funcKw => some .suffix
  | .keyword .notKw => some .not
  | .mark .badge | .mark .openBracket | .mark .openParen => some .suffix
  | .mark .plus | .mark .minus => some .sign
  | _ => none

/-- The precedence at which a token goes on with an expression. -/
def TokenKind.joint? : TokenKind → Option Precedence
  | .mark .assign => some .assign
  | .keyword .orKw => some .or
  | .keyword .andKw => some .and
  | .mark .equal | .mark .notEqual | .mark .less | .mark .lessEqual
  | .mark .greater | .mark .greaterEqual => some .relation
  | .mark .ampersand => some .compose
  | .mark .plus | .mark .minus => some .sum
  | .mark .star | .mark .slash | .mark .percent => some .product
  | .mark .dot | .mark .openBracket | .mark .openParen => some .suffix
  | _ => none

/-- An expression that binds as tightly as `required` can start with the
token. -/
def TokenKind.Leads (kind : TokenKind) (required : Precedence) : Prop :=
  ∃ lead, kind.lead? = some lead ∧ required.rank ≤ lead.rank

theorem TokenKind.leads_of_suffix {kind : TokenKind}
    (hlead : kind.lead? = some .suffix) (required : Precedence) :
    kind.Leads required :=
  ⟨.suffix, hlead, required.rank_le_suffix⟩

theorem TokenKind.Leads.mono {kind : TokenKind} {required other : Precedence}
    (hleads : kind.Leads other) (hrank : required.rank ≤ other.rank) :
    kind.Leads required := by
  obtain ⟨lead, hlead, hle⟩ := hleads
  exact ⟨lead, hlead, Nat.le_trans hrank hle⟩

/-- Expressions start with no token that does not lead one. -/
theorem TokenKind.Leads.ne {kind other : TokenKind} {required : Precedence}
    (hleads : kind.Leads required) (hother : other.lead? = none) :
    kind ≠ other := by
  rintro rfl
  obtain ⟨lead, hlead, _⟩ := hleads
  exact nomatch hother.symm.trans hlead

@[simp] theorem BinaryOp.joint?_token (op : BinaryOp) :
    op.token.joint? = some op.precedence := by
  cases op <;> rfl

theorem BinaryOp.rank_leftPrecedence (op : BinaryOp) :
    op.precedence.rank ≤ op.leftPrecedence.rank := by
  cases op <;> decide

theorem Key.lead?_token (key : Key) : key.token.lead? = some .suffix := by
  cases key with
  | badge label =>
      rw [token]
      split <;> rfl
  | index position => rfl

theorem Key.lead?_writeTarget (key : Key) (more : List Token) :
    (firstKind (key.writeTarget more)).lead? = some .suffix := by
  unfold writeTarget
  split <;> rfl

/-- An operand starts as its place asks for if the expression alone starts as
its operator asks for. -/
theorem TokenKind.leads_enclosed {tree : Tree .expr}
    (htree : ∀ more, (firstKind (tree.write more)).Leads tree.precedence)
    (required : Precedence) (more : List Token) :
    (firstKind (tree.operand required more)).Leads required := by
  by_cases hlooser : tree.precedence.rank < required.rank
  · simp only [Tree.operand, enclosed, hlooser, decide_true, if_true]
    exact leads_of_suffix rfl required
  · simp only [Tree.operand, enclosed, hlooser, decide_false,
      Bool.false_eq_true, if_false]
    exact (htree more).mono (Nat.le_of_not_lt hlooser)

/-- The first token of an expression, which is the one of its leftmost
operand. -/
theorem Tree.leads (tree : Tree .expr) (more : List Token) :
    (firstKind (tree.write more)).Leads tree.precedence := by
  match tree with
  | .null | .int _ | .float _ | .str _ | .ident _ | .badge _ | .array _
  | .args _ | .func _ _ => exact TokenKind.leads_of_suffix rfl _
  | .bool value => cases value <;> exact TokenKind.leads_of_suffix rfl _
  | .member receiver _ => exact TokenKind.leads_enclosed receiver.leads .suffix _
  | .index receiver _ => exact TokenKind.leads_enclosed receiver.leads .suffix _
  | .call callee _ => exact TokenKind.leads_enclosed callee.leads .suffix _
  | .binary op left _ =>
      exact (TokenKind.leads_enclosed left.leads op.leftPrecedence _).mono
        op.rank_leftPrecedence
  | .compose left _ => exact TokenKind.leads_enclosed left.leads .compose _
  | .unary op _ =>
      refine ⟨op.precedence, ?_, Nat.le_refl _⟩
      cases op <;> rfl
  | .assign target _ =>
      exact TokenKind.leads_of_suffix (target.key.lead?_writeTarget _) _

theorem Tree.leads_operand (tree : Tree .expr) (required : Precedence)
    (more : List Token) :
    (firstKind (tree.operand required more)).Leads required :=
  TokenKind.leads_enclosed tree.leads required more

/-- How the text of an expression in front of `more` can start.  A second token
does not matter after a token that is neither a key nor the word of a
function. -/
inductive Opening (more : List Token) : List Token → Prop where
  | other {kind : TokenKind} {tokens : List Token}
      (hkey : Parse.keyOf? kind = none) (hfunc : kind ≠ .keyword .funcKw) :
      Opening more (.of kind :: tokens)
  | func (tokens : List Token) :
      Opening more
        (.of (.keyword .funcKw) :: .of (.mark .openParen) :: tokens)
  | alone (kind : TokenKind) (hfunc : kind ≠ .keyword .funcKw) :
      Opening more (.of kind :: more)
  | joined (kind : TokenKind) {joint : TokenKind} {tokens : List Token}
      (hfunc : kind ≠ .keyword .funcKw) (hjoint : joint.joint?.isSome)
      (hassign : joint = .mark .assign →
        firstKind tokens ≠ .mark .openBrace) :
      Opening more (.of kind :: .of joint :: tokens)

/-- The first operand starts the text of an operator. -/
theorem Opening.operand {more middle : List Token} {tree : Tree .expr}
    {joint : TokenKind} {required : Precedence}
    (htree : Opening (.of joint :: middle) (tree.write (.of joint :: middle)))
    (hjoint : joint.joint?.isSome) (hassign : joint ≠ .mark .assign) :
    Opening more (tree.operand required (.of joint :: middle)) := by
  by_cases hlooser : tree.precedence.rank < required.rank
  · simp only [Tree.operand, enclosed, hlooser, decide_true, if_true]
    exact .other rfl nofun
  · simp only [Tree.operand, enclosed, hlooser, decide_false,
      Bool.false_eq_true, if_false]
    generalize tree.write (.of joint :: middle) = tokens at htree
    cases htree with
    | other hkey hfunc => exact .other hkey hfunc
    | func tokens => exact .func tokens
    | alone kind hfunc =>
        exact .joined kind hfunc hjoint fun heq => absurd heq hassign
    | joined kind hfunc hjoint hassign => exact .joined kind hfunc hjoint hassign

theorem Tree.opening (tree : Tree .expr) (more : List Token) :
    Opening more (tree.write more) := by
  match tree with
  | .null => exact .alone _ nofun
  | .bool value => cases value <;> exact .alone _ nofun
  | .int _ | .float _ | .str _ | .ident _ => exact .alone _ nofun
  | .badge _ | .array _ | .args _ => exact .other rfl nofun
  | .func _ _ => exact .func _
  | .member receiver _ => exact Opening.operand (receiver.opening _) rfl nofun
  | .index receiver _ => exact Opening.operand (receiver.opening _) rfl nofun
  | .call callee _ => exact Opening.operand (callee.opening _) rfl nofun
  | .binary op left _ =>
      apply Opening.operand (left.opening _) (by simp)
      cases op <;> nofun
  | .compose left _ => exact Opening.operand (left.opening _) rfl nofun
  | .unary op _ => cases op <;> exact .other rfl nofun
  | .assign target value =>
      unfold write Key.writeTarget
      split
      · exact .joined _ nofun rfl fun _ => (value.leads more).ne rfl
      · exact .other rfl nofun

/-- A statement can start with the token. -/
def TokenKind.startsStmt : TokenKind → Bool
  | .keyword .ifKw | .keyword .doKw | .keyword .forKw | .keyword .tryKw
  | .keyword .withKw | .keyword .inheritKw | .keyword .returnKw
  | .keyword .raiseKw | .keyword .breakKw | .keyword .continueKw => true
  | kind => kind.lead?.isSome

theorem TokenKind.Leads.startsStmt {kind : TokenKind} {required : Precedence}
    (hleads : kind.Leads required) : kind.startsStmt = true := by
  obtain ⟨lead, hlead, _⟩ := hleads
  unfold TokenKind.startsStmt
  split <;> simp_all

/-- Statements do not start with what ends them or goes on with them. -/
theorem TokenKind.ne_of_startsStmt {kind other : TokenKind}
    (hstarts : kind.startsStmt = true) (hother : other.startsStmt = false) :
    kind ≠ other := by
  rintro rfl
  exact nomatch hstarts.symm.trans hother

theorem Tree.startsStmt {inLoop : Bool} (stmt : Tree (.stmt inLoop))
    (more : List Token) : (firstKind (stmt.write more)).startsStmt = true := by
  cases stmt with
  | expr value => exact (value.leads more).startsStmt
  | _ => rfl

end ChainScript
