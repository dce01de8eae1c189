import ChainScript.Lexer
import ChainScript.Parser.Expression
import ChainScript.Proofs.SyntaxTrees

/-
The tokens of a syntax tree.

There are parentheses around an operand just where it binds less tightly than
its place asks for, commas between entries and one more after a single
argument, and line feeds between statements.  A further condition after `else`
is a conditional in a block of its own, as it is in the tree.

A tree is written in front of tokens that come after it, so that nothing has to
be said about where one list ends and another one starts.
-/

namespace ChainScript

/-- How tightly an expression binds, loosest first. -/
inductive Precedence where
  | assign
  | or
  | and
  | not
  | relation
  | compose
  | sum
  | product
  | sign
  /-- Calls, members and indices, and all that has no operands. -/
  | suffix
deriving Repr, DecidableEq

namespace Precedence

def rank : Precedence → Nat
  | .assign => 0
  | .or => 1
  | .and => 2
  | .not => 3
  | .relation => 4
  | .compose => 5
  | .sum => 6
  | .product => 7
  | .sign => 8
  | .suffix => 9

/-- The next tighter precedence. -/
def tighter : Precedence → Precedence
  | .assign => .or
  | .or => .and
  | .and => .not
  | .not => .relation
  | .relation => .compose
  | .compose => .sum
  | .sum => .product
  | .product => .sign
  | .sign => .suffix
  | .suffix => .suffix

theorem rank_le_suffix (required : Precedence) :
    required.rank ≤ suffix.rank := by
  cases required <;> decide

theorem rank_tighter {required : Precedence} (hne : required ≠ .suffix) :
    required.tighter.rank = required.rank + 1 := by
  cases required <;> first | rfl | exact absurd rfl hne

theorem eq_of_rank_eq {one other : Precedence}
    (hrank : one.rank = other.rank) : one = other := by
  cases one <;> cases other <;> first | rfl | cases hrank

end Precedence

def BinaryOp.precedence : BinaryOp → Precedence
  | .add | .sub => .sum
  | .mul | .div | .mod => .product
  | .equal | .notEqual | .less | .lessEqual | .greater | .greaterEqual =>
      .relation
  | .and => .and
  | .or => .or

/-- How tightly the left operand has to bind.  Comparisons do not chain; the
other binary operators group to the left. -/
def BinaryOp.leftPrecedence (op : BinaryOp) : Precedence :=
  if op.precedence = .relation then .compose else op.precedence

def UnaryOp.precedence : UnaryOp → Precedence
  | .neg | .plus => .sign
  | .not => .not

def Tree.precedence : Tree .expr → Precedence
  | .binary op _ _ => op.precedence
  | .unary op _ => op.precedence
  | .compose _ _ => .compose
  | .assign _ _ => .assign
  | _ => .suffix

/-- The token of a kind, at no place in particular. -/
def Token.of (kind : TokenKind) : Token :=
  ⟨kind, .origin⟩

@[simp] theorem Token.kind_of (kind : TokenKind) : (Token.of kind).kind = kind :=
  rfl

@[simp] theorem firstKind_cons (token : Token) (more : List Token) :
    firstKind (token :: more) = token.kind :=
  rfl

/-- The text can stand for a name. -/
def isName (text : String) : Bool :=
  match text.toList with
  | [] => false
  | first :: others =>
      isWordStart first && others.all isWordPart &&
        (Keyword.ofSpelling? text).isNone

/-- The token of a key: a label that is not a name stands between quotes. -/
def Key.token : Key → TokenKind
  | .badge label => if isName label then .ident label else .str label
  | .index position => .int position.toInt64

/-- The token of a key after a dot. -/
def Key.memberToken : Key → TokenKind
  | .badge label => .ident label
  | .index position => .int position.toInt64

def BinaryOp.token : BinaryOp → TokenKind
  | .add => .mark .plus
  | .sub => .mark .minus
  | .mul => .mark .star
  | .div => .mark .slash
  | .mod => .mark .percent
  | .equal => .mark .equal
  | .notEqual => .mark .notEqual
  | .less => .mark .less
  | .lessEqual => .mark .lessEqual
  | .greater => .mark .greater
  | .greaterEqual => .mark .greaterEqual
  | .and => .keyword .andKw
  | .or => .keyword .orKw

def UnaryOp.token : UnaryOp → TokenKind
  | .neg => .mark .minus
  | .plus => .mark .plus
  | .not => .keyword .notKw

/-- The target of an assignment: a name, or any other key after its sign. -/
def Key.writeTarget (key : Key) (more : List Token) : List Token :=
  match key.token with
  | .ident name => .of (.ident name) :: more
  | kind => .of (.mark .badge) :: .of kind :: more

/-- Text in parentheses, if they are needed. -/
def enclosed (needed : Bool) (text : List Token → List Token)
    (more : List Token) : List Token :=
  if needed then
    .of (.mark .openParen) :: text (.of (.mark .closeParen) :: more)
  else text more

/-- Text in braces. -/
def braced (text : List Token → List Token) (more : List Token) : List Token :=
  .of (.mark .openBrace) :: text (.of (.mark .closeBrace) :: more)

/-- Text after a token, if the token is needed. -/
def preceded (needed : Bool) (kind : TokenKind) (more : List Token) :
    List Token :=
  if needed then .of kind :: more else more

/-- The tree is an empty list, or something left out. -/
def Tree.isEmpty : {category : Category} → Tree category → Bool
  | _, .absent | _, .noEntries | _, .noParams | _, .done | _, .noOther => true
  | _, _ => false

/-- A list of a single entry.  Without a comma after it the parentheses would
only group. -/
def Tree.isSingle : Tree .entries → Bool
  | .noEntries => false
  | .item _ others | .keyed _ _ others | .expand _ others => others.isEmpty

/-- The variables of a loop. -/
def writeVariables (key : Option String) (value : String)
    (more : List Token) : List Token :=
  match key with
  | none => .of (.ident value) :: more
  | some key =>
      .of (.ident key) :: .of (.mark .comma) :: .of (.ident value) :: more

/-- The name of a resource, if it has one. -/
def writeBinding (binding : Option String) (more : List Token) : List Token :=
  match binding with
  | none => more
  | some name => .of (.keyword .asKw) :: .of (.ident name) :: more

/-- Further names after a comma each. -/
def writeNames (names : List String) (more : List Token) : List Token :=
  match names with
  | [] => more
  | name :: names =>
      .of (.mark .comma) :: .of (.ident name) :: writeNames names more

def CatchHead.write (head : CatchHead) (more : List Token) : List Token :=
  match head with
  | .all => more
  | .bind name _ => .of (.ident name) :: more
  | .only first others name =>
      .of (.ident first) :: writeNames others
        (.of (.keyword .asKw) :: .of (.ident name) :: more)

/-- The tokens of a tree, in front of the tokens that come after it. -/
def Tree.write :
    {category : Category} → Tree category → List Token → List Token
  | _, .null, more => .of (.keyword .nullKw) :: more
  | _, .bool true, more => .of (.keyword .trueKw) :: more
  | _, .bool false, more => .of (.keyword .falseKw) :: more
  | _, .int value, more => .of (.int value) :: more
  | _, .float value, more => .of (.float value) :: more
  | _, .str text, more => .of (.str text) :: more
  | _, .ident name, more => .of (.ident name) :: more
  | _, .badge key, more => .of (.mark .badge) :: .of key.key.token :: more
  | _, .member receiver key, more =>
      enclosed (receiver.precedence.rank < Precedence.suffix.rank)
        receiver.write (.of (.mark .dot) :: .of key.key.memberToken :: more)
  | _, .index receiver key, more =>
      enclosed (receiver.precedence.rank < Precedence.suffix.rank)
        receiver.write
        (.of (.mark .openBracket) ::
          key.write (.of (.mark .closeBracket) :: more))
  | _, .array entries, more =>
      .of (.mark .openBracket) ::
        entries.write (.of (.mark .closeBracket) :: more)
  | _, .args entries, more =>
      .of (.mark .openParen) ::
        entries.write
          (preceded entries.isSingle (.mark .comma)
            (.of (.mark .closeParen) :: more))
  | _, .binary op left right, more =>
      enclosed (left.precedence.rank < op.leftPrecedence.rank) left.write
        (.of op.token ::
          enclosed (right.precedence.rank < op.precedence.tighter.rank)
            right.write more)
  | _, .unary op operand, more =>
      .of op.token ::
        enclosed (operand.precedence.rank < op.precedence.rank) operand.write
          more
  | _, .compose left right, more =>
      enclosed (left.precedence.rank < Precedence.compose.rank) left.write
        (.of (.mark .ampersand) ::
          enclosed (right.precedence.rank < Precedence.sum.rank) right.write
            more)
  | _, .call callee arguments, more =>
      enclosed (callee.precedence.rank < Precedence.suffix.rank) callee.write
        (.of (.mark .openParen) ::
          arguments.write
            (preceded arguments.isSingle (.mark .comma)
              (.of (.mark .closeParen) :: more)))
  | _, .assign target value, more =>
      target.key.writeTarget (.of (.mark .assign) :: value.write more)
  | _, .func params body, more =>
      .of (.keyword .funcKw) :: .of (.mark .openParen) ::
        params.write (.of (.mark .closeParen) :: braced body.write more)
  | _, .absent, more => more
  | _, .present value, more => value.write more
  | _, .noEntries, more => more
  | _, .item value others, more =>
      value.write
        (preceded (!others.isEmpty) (.mark .comma) (others.write more))
  | _, .keyed key value others, more =>
      .of key.key.token :: .of (.mark .colon) ::
        value.write
          (preceded (!others.isEmpty) (.mark .comma) (others.write more))
  | _, .expand name others, more =>
      .of (.mark .ellipsis) :: .of (.ident name) ::
        preceded (!others.isEmpty) (.mark .comma) (others.write more)
  | _, .noParams, more => more
  | _, .rest name, more =>
      .of (.mark .ellipsis) :: .of (.ident name) :: more
  | _, .param name default others, more =>
      .of (.ident name) ::
        preceded (!default.isEmpty) (.mark .assign)
          (default.write
            (preceded (!others.isEmpty) (.mark .comma) (others.write more)))
  | _, .expr value, more => value.write more
  | _, .branch condition body other, more =>
      .of (.keyword .ifKw) ::
        condition.write (braced body.write (other.write more))
  | _, .scope body, more => .of (.keyword .doKw) :: braced body.write more
  | _, .loop key value iterated body, more =>
      .of (.keyword .forKw) :: writeVariables key value
        (.of (.keyword .inKw) :: iterated.write (braced body.write more))
  | _, .attempt body head recovery, more =>
      .of (.keyword .tryKw) :: braced body.write
        (.of (.keyword .catchKw) :: head.write (braced recovery.write more))
  | _, .resource acquired binding body, more =>
      .of (.keyword .withKw) ::
        acquired.write (writeBinding binding (braced body.write more))
  | _, .assignBlock name body, more =>
      .of (.ident name) :: .of (.mark .assign) :: braced body.write more
  | _, .funcBlock name params body, more =>
      .of (.keyword .funcKw) :: .of (.ident name) :: .of (.mark .openParen) ::
        params.write (.of (.mark .closeParen) :: braced body.write more)
  | _, .inheritBlock name parent body, more =>
      .of (.keyword .inheritKw) :: .of (.ident name) ::
        .of (.keyword .fromKw) :: .of (.ident parent) :: braced body.write more
  | _, .return value, more => .of (.keyword .returnKw) :: value.write more
  | _, .raise value, more => .of (.keyword .raiseKw) :: value.write more
  | _, .break, more => .of (.keyword .breakKw) :: more
  | _, .continue, more => .of (.keyword .continueKw) :: more
  | _, .done, more => more
  | _, .next first others, more =>
      first.write (preceded (!others.isEmpty) .newline (others.write more))
  | _, .noOther, more => more
  | _, .otherwise body, more =>
      .of (.keyword .elseKw) :: braced body.write more

/-- The tokens of a whole script. -/
def print (tree : Tree (.stmts false)) : List Token :=
  tree.write [.of .eof]

/-- An expression where one is expected that binds as tightly as `required`. -/
def Tree.operand (required : Precedence) (tree : Tree .expr)
    (more : List Token) : List Token :=
  enclosed (tree.precedence.rank < required.rank) tree.write more

section Length

/-- There are at least so many tokens more. -/
def Longer (least : Nat) (more tokens : List Token) : Prop :=
  more.length + least ≤ tokens.length

/-- How many tokens a tree has at least. -/
def Category.least : Category → Nat
  | .expr => 1
  | .stmt _ => 1
  | _ => 0

variable {least : Nat} {more tokens : List Token}
  {text : List Token → List Token}

theorem longer_refl (more : List Token) : Longer 0 more more :=
  Nat.le_refl _

theorem Longer.cons (hlonger : Longer least more tokens) (token : Token) :
    Longer (least + 1) more (token :: tokens) :=
  Nat.succ_le_succ hlonger

theorem Longer.weaken (hlonger : Longer least more tokens) {fewer : Nat}
    (hfewer : fewer ≤ least) : Longer fewer more tokens :=
  Nat.le_trans (Nat.add_le_add_left hfewer _) hlonger

theorem Longer.trans (hlonger : Longer least more tokens) {other : Nat}
    {all : List Token} (hall : Longer other tokens all) :
    Longer (least + other) more all := by
  unfold Longer at *
  omega

theorem Longer.enclosed (htext : ∀ more, Longer least more (text more))
    (needed : Bool) (more : List Token) :
    Longer least more (enclosed needed text more) := by
  cases needed with
  | false => exact htext more
  | true =>
      have hinside := (longer_refl more).cons (.of (.mark .closeParen))
      exact ((hinside.trans (htext _)).cons _).weaken (by omega)

theorem Longer.braced (htext : ∀ more, Longer least more (text more))
    (more : List Token) : Longer (least + 2) more (braced text more) := by
  have hinside := (longer_refl more).cons (.of (.mark .closeBrace))
  exact ((hinside.trans (htext _)).cons _).weaken (by omega)

theorem Key.longer_writeTarget (key : Key) (more : List Token) :
    Longer 1 more (key.writeTarget more) := by
  unfold writeTarget
  split
  · exact (longer_refl more).cons _
  · exact (((longer_refl more).cons _).cons _).weaken (by decide)

theorem Longer.preceded (hlonger : Longer least more tokens) (needed : Bool)
    (kind : TokenKind) : Longer least more (preceded needed kind tokens) := by
  cases needed with
  | false => exact hlonger
  | true => exact (hlonger.cons (.of kind)).weaken (Nat.le_succ least)

theorem longer_writeVariables (key : Option String) (value : String)
    (more : List Token) : Longer 1 more (writeVariables key value more) := by
  have hvalue := (longer_refl more).cons (.of (.ident value))
  cases key with
  | none => exact hvalue
  | some key => exact ((hvalue.cons _).cons _).weaken (by decide)

theorem longer_writeBinding (binding : Option String) (more : List Token) :
    Longer 0 more (writeBinding binding more) := by
  cases binding with
  | none => exact longer_refl more
  | some name => exact (((longer_refl more).cons _).cons _).weaken (by decide)

theorem longer_writeNames (names : List String) (more : List Token) :
    Longer 0 more (writeNames names more) := by
  induction names with
  | nil => exact longer_refl more
  | cons name names ih => exact ((ih.cons _).cons _).weaken (by decide)

theorem CatchHead.longer_write (head : CatchHead) (more : List Token) :
    Longer 0 more (head.write more) := by
  cases head with
  | all => exact longer_refl more
  | bind name hname => exact ((longer_refl more).cons _).weaken (by decide)
  | only first others name =>
      have hname := ((longer_refl more).cons (.of (.ident name))).cons
        (.of (.keyword .asKw))
      exact ((hname.trans (longer_writeNames others _)).cons _).weaken
        (by decide)

/-- A text comes in front of all tokens after it; expressions and statements
are not empty. -/
theorem Tree.longer_write {category : Category} (tree : Tree category)
    (more : List Token) : Longer category.least more (tree.write more) := by
  induction tree generalizing more with
  | bool value => cases value <;> exact (longer_refl more).cons _
  | null | int | float | str | ident | «break» | «continue» =>
      exact (longer_refl more).cons _
  | badge key => exact (((longer_refl more).cons _).cons _).weaken (by decide)
  | member receiver key ih =>
      have hkey := ((longer_refl more).cons (.of key.key.memberToken)).cons
        (.of (.mark .dot))
      exact (hkey.trans (.enclosed ih _ _)).weaken (by decide)
  | index receiver key ihr ihk =>
      have hclose := (longer_refl more).cons (.of (.mark .closeBracket))
      have hkey := (hclose.trans (ihk _)).cons (.of (.mark .openBracket))
      exact (hkey.trans (.enclosed ihr _ _)).weaken (by decide)
  | array entries ih =>
      have hclose := (longer_refl more).cons (.of (.mark .closeBracket))
      exact ((hclose.trans (ih _)).cons _).weaken (by decide)
  | args entries ih =>
      have hclose := (longer_refl more).cons (.of (.mark .closeParen))
      have hcomma := hclose.preceded entries.isSingle (.mark .comma)
      exact ((hcomma.trans (ih _)).cons _).weaken (by decide)
  | binary op left right ihl ihr =>
      have hright := (Longer.enclosed ihr
        (right.precedence.rank < op.precedence.tighter.rank) more).cons
        (.of op.token)
      exact (hright.trans (.enclosed ihl _ _)).weaken (by decide)
  | compose left right ihl ihr =>
      have hright := (Longer.enclosed ihr
        (right.precedence.rank < Precedence.sum.rank) more).cons
        (.of (.mark .ampersand))
      exact (hright.trans (.enclosed ihl _ _)).weaken (by decide)
  | unary op operand ih =>
      exact ((Longer.enclosed ih _ more).cons _).weaken (by decide)
  | call callee arguments ihc iha =>
      have hclose := (longer_refl more).cons (.of (.mark .closeParen))
      have hcomma := hclose.preceded arguments.isSingle (.mark .comma)
      have hargs := (hcomma.trans (iha _)).cons (.of (.mark .openParen))
      exact (hargs.trans (.enclosed ihc _ _)).weaken (by decide)
  | assign target value ih =>
      have hvalue := (ih more).cons (.of (.mark .assign))
      exact (hvalue.trans (target.key.longer_writeTarget _)).weaken (by decide)
  | func params body ihp ihb =>
      have hbody := (Longer.braced ihb more).cons (.of (.mark .closeParen))
      exact (((hbody.trans (ihp _)).cons _).cons _).weaken (by decide)
  | funcBlock name params body ihp ihb =>
      have hbody := (Longer.braced ihb more).cons (.of (.mark .closeParen))
      exact ((((hbody.trans (ihp _)).cons _).cons _).cons _).weaken
        (by simp [Category.least])
  | absent | noEntries | noParams | done | noOther => exact longer_refl more
  | present value ih => exact (ih more).weaken (by decide)
  | expr value ih => exact ih more
  | item value others ihv iho =>
      exact (((iho more).preceded _ _).trans (ihv _)).weaken
        (by decide)
  | keyed key value others ihv iho =>
      have hothers := (iho more).preceded (!others.isEmpty) (.mark .comma)
      exact (((hothers.trans (ihv _)).cons _).cons _).weaken (by decide)
  | expand name others ih =>
      have hothers := (ih more).preceded (!others.isEmpty) (.mark .comma)
      exact ((hothers.cons _).cons _).weaken (by decide)
  | rest name => exact (((longer_refl more).cons _).cons _).weaken (by decide)
  | param name default others ihd iho =>
      have hothers := (iho more).preceded (!others.isEmpty) (.mark .comma)
      have hdefault := hothers.trans (ihd _)
      exact ((hdefault.preceded _ _).cons _).weaken
        (by decide)
  | branch condition body other ihc ihb iho =>
      have hbody := (iho more).trans (.braced ihb _)
      exact ((hbody.trans (ihc _)).cons _).weaken (by simp [Category.least])
  | scope body ih | otherwise body ih =>
      exact ((Longer.braced ih more).cons _).weaken (by simp [Category.least])
  | loop key value iterated body ihi ihb =>
      have hiterated := ((Longer.braced ihb more).trans (ihi _)).cons
        (.of (.keyword .inKw))
      exact ((hiterated.trans (longer_writeVariables key value _)).cons
        _).weaken (by simp [Category.least])
  | attempt body head recovery ihb ihr =>
      have hrecovery := ((Longer.braced ihr more).trans
        (head.longer_write _)).cons (.of (.keyword .catchKw))
      exact ((hrecovery.trans (.braced ihb _)).cons _).weaken
        (by simp [Category.least])
  | resource acquired binding body iha ihb =>
      have hbody := (Longer.braced ihb more).trans
        (longer_writeBinding binding _)
      exact ((hbody.trans (iha _)).cons _).weaken (by simp [Category.least])
  | assignBlock name body ih =>
      exact (((Longer.braced ih more).cons _).cons _).weaken
        (by simp [Category.least])
  | inheritBlock name parent body ih =>
      exact (((((Longer.braced ih more).cons _).cons _).cons _).cons _).weaken
        (by simp [Category.least])
  | «return» value ih | raise value ih => exact (ih more).cons _
  | next first others ihf iho =>
      exact (((iho more).preceded _ _).trans (ihf _)).weaken
        (by simp [Category.least])

theorem Tree.longer_operand (required : Precedence) (tree : Tree .expr)
    (more : List Token) : Longer 1 more (tree.operand required more) :=
  .enclosed tree.longer_write _ more

end Length

end ChainScript
