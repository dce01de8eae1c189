import ChainScript.Parser
import ChainScript.Proofs.SyntaxTrees

/-
What a parser does in front of given tokens.

A parser passes tokens if it answers and leaves the tables alone, and accepts
them if it answers and may add rows.  In between it continues as another parser:
this says of an operand that it has been read, and that a chain of operators
goes on from there.

The kinds of tokens are all that counts.  What has been read and the places of
the tokens decide the places of the rows only.
-/

namespace ChainScript

open Step

/-- What surrounds a parser: whether line feeds count, innermost first, and the
number of loops in the same function. -/
structure Setting where
  modes : List Bool
  loopDepth : Nat

namespace Setting

variable (setting : Setting)

def newlinesCount : Bool :=
  setting.modes.head?.getD true

/-- No line feeds are passed over in front of the tokens. -/
def Settles (tokens : List Token) : Prop :=
  setting.newlinesCount = false → firstKind tokens ≠ .newline

end Setting

/-- The tokens have the same kinds, whatever their places. -/
def SameKinds (tokens others : List Token) : Prop :=
  tokens.map Token.kind = others.map Token.kind

namespace SameKinds

variable {tokens others : List Token}

theorem of_cons {token : Token}
    (hsame : SameKinds tokens (token :: others)) :
    ∃ first rest, tokens = first :: rest ∧ first.kind = token.kind ∧
      SameKinds rest others :=
  List.map_eq_cons_iff.mp hsame

theorem firstKind_eq (hsame : SameKinds tokens others) :
    firstKind tokens = firstKind others := by
  cases others with
  | nil => rw [List.map_eq_nil_iff.mp hsame]
  | cons token others =>
      obtain ⟨first, rest, rfl, hkind, -⟩ := hsame.of_cons
      exact hkind

theorem length_eq (hsame : SameKinds tokens others) :
    tokens.length = others.length := by
  simpa using congrArg List.length hsame

theorem dropNewlines (hsame : SameKinds tokens others) :
    SameKinds (tokens.dropWhile Token.isNewline)
      (others.dropWhile Token.isNewline) := by
  unfold SameKinds at hsame ⊢
  have hline : Token.isNewline = (· == .newline) ∘ Token.kind := rfl
  rw [hline, ← List.dropWhile_map, ← List.dropWhile_map, hsame]

theorem peekIn_eq (hsame : SameKinds tokens others) (newlinesCount : Bool)
    (n : Nat) :
    Cursor.peekIn newlinesCount n tokens =
      Cursor.peekIn newlinesCount n others := by
  induction n generalizing tokens others with
  | zero =>
      cases newlinesCount with
      | true => exact hsame.firstKind_eq
      | false => exact hsame.dropNewlines.firstKind_eq
  | succ n ih =>
      have hseen : SameKinds
          (if newlinesCount then tokens else tokens.dropWhile Token.isNewline)
          (if newlinesCount then others
            else others.dropWhile Token.isNewline) := by
        cases newlinesCount with
        | true => exact hsame
        | false => exact hsame.dropNewlines
      unfold Cursor.peekIn
      split
      · next hnil =>
          rw [hnil] at hseen
          rw [List.map_eq_nil_iff.mp hseen.symm]
      · next token rest hcons =>
          rw [hcons] at hseen
          obtain ⟨first, others, hothers, hkind, hrest⟩ :=
            SameKinds.of_cons hseen.symm
          rw [hothers]
          simp only [hkind, ih hrest.symm]

end SameKinds

/-- The parser is in front of the tokens, or of others of the same kinds. -/
structure ParserState.At (setting : Setting) (tokens : List Token)
    (state : ParserState) : Prop where
  rest : SameKinds state.cursor.rest tokens
  modes : state.cursor.modes = setting.modes
  loopDepth : state.loopDepth = setting.loopDepth

theorem dropWhile_newlines {tokens : List Token}
    (hfirst : firstKind tokens ≠ .newline) :
    tokens.dropWhile Token.isNewline = tokens := by
  cases tokens with
  | nil => rfl
  | cons token tokens =>
      have hkind : token.isNewline = false := by
        simpa [Token.isNewline, firstKind] using hfirst
      simp [hkind]

namespace TokenKind

/-- Neither a line feed nor the end of the text. -/
def isVisible : TokenKind → Bool
  | .newline | .eof => false
  | _ => true

theorem ne_newline {kind : TokenKind} (hvisible : kind.isVisible = true) :
    kind ≠ .newline := by
  rintro rfl
  cases hvisible

theorem ne_eof {kind : TokenKind} (hvisible : kind.isVisible = true) :
    kind ≠ .eof := by
  rintro rfl
  cases hvisible

theorem sameVariant_mark {kind : TokenKind} {symbol : Mark}
    (hne : kind ≠ .mark symbol) : kind.sameVariant (.mark symbol) = false := by
  rw [Bool.eq_false_iff, ne_eq, sameVariant_mark_iff]
  exact hne

theorem sameVariant_keyword {kind : TokenKind} {word : Keyword}
    (hne : kind ≠ .keyword word) :
    kind.sameVariant (.keyword word) = false := by
  rw [Bool.eq_false_iff, ne_eq, sameVariant_keyword_iff]
  exact hne

theorem sameVariant_eof {kind : TokenKind} (hne : kind ≠ .eof) :
    kind.sameVariant .eof = false := by
  cases kind <;> first | rfl | exact absurd rfl hne

end TokenKind

namespace Cursor

theorem rest_skipNewlines {cursor : Cursor}
    (hfirst : firstKind cursor.rest ≠ .newline) :
    cursor.skipNewlines.rest = cursor.rest := by
  simp only [skipNewlines, passNewlines_snd]
  exact dropWhile_newlines hfirst

theorem rest_settle {cursor : Cursor}
    (hsettles : cursor.newlinesCount = false →
      firstKind cursor.rest ≠ .newline) :
    cursor.settle.rest = cursor.rest := by
  unfold settle
  split
  · rfl
  · next hcount => exact rest_skipNewlines (hsettles (by simpa using hcount))

theorem rest_advance {cursor : Cursor} {token : Token} {tokens : List Token}
    (hrest : cursor.rest = token :: tokens) (heof : token.kind ≠ .eof)
    (hsettles : cursor.newlinesCount = false →
      firstKind tokens ≠ .newline) : cursor.advance.rest = tokens := by
  simp only [advance, hrest, heof, if_false]
  exact rest_settle hsettles

/-- The token after the current one, if there are no line feeds between
them. -/
theorem peekIn_one {newlinesCount : Bool} {token : Token}
    {tokens : List Token} (hkind : token.kind ≠ .newline)
    (heof : token.kind ≠ .eof)
    (hsettles : newlinesCount = false → firstKind tokens ≠ .newline) :
    peekIn newlinesCount 1 (token :: tokens) = firstKind tokens := by
  have hline : firstKind (token :: tokens) ≠ .newline := hkind
  cases newlinesCount with
  | true => simp [peekIn, heof]
  | false =>
      simp [peekIn, heof, dropWhile_newlines hline,
        dropWhile_newlines (hsettles rfl)]

end Cursor

namespace Parse

variable {α β γ : Type}

/-- From `before` to `after` the parser answers with something good, and it
leaves the tables alone. -/
def Passes (setting : Setting) (parser : Parse α) (before after : List Token)
    (Good : α → Prop) : Prop :=
  ∀ state : ParserState, state.At setting before →
    ∃ value final, parser state = (.ok value, final) ∧
      final.At setting after ∧ final.program = state.program ∧ Good value

/-- In front of `before` the parser does what `next` does in front of `after`
from a good value on.  Tables have grown from `base` at the start, and may grow
on the way. -/
def Continues (setting : Setting) (base : Program) (parser : Parse β)
    (before after : List Token) (next : α → Parse β)
    (Good : Program → α → Prop) : Prop :=
  ∀ state : ParserState, state.At setting before →
    base.Grows state.program →
    ∃ value final, parser state = next value final ∧
      final.At setting after ∧ state.program.Grows final.program ∧
      Good final.program value

/-- From `before` to `after` the parser answers with something good. -/
abbrev Accepts (setting : Setting) (base : Program) (parser : Parse α)
    (before after : List Token) (Good : Program → α → Prop) : Prop :=
  Continues setting base parser before after pure Good

section Passes

variable {setting : Setting} {before middle after tokens : List Token}
  {Good : α → Prop} {Then : β → Prop}

theorem passes_pure {value : α} (hgood : Good value) :
    Passes setting (pure value) tokens tokens Good :=
  fun state hstate => ⟨value, state, rfl, hstate, rfl, hgood⟩

theorem Passes.bind {first : Parse α} {next : α → Parse β}
    (hfirst : Passes setting first before middle Good)
    (hnext : ∀ value, Good value →
      Passes setting (next value) middle after Then) :
    Passes setting (first >>= next) before after Then := by
  intro state hstate
  obtain ⟨value, between, hrun, hmiddle, hsame, hgood⟩ := hfirst state hstate
  obtain ⟨other, final, hlast, hafter, hstill, hthen⟩ :=
    hnext value hgood between hmiddle
  refine ⟨other, final, ?_, hafter, hstill.trans hsame, hthen⟩
  simp only [bind_apply, hrun, hlast]

theorem passes_look {f : Cursor → α}
    (hgood : ∀ cursor : Cursor, SameKinds cursor.rest tokens →
      cursor.modes = setting.modes → Good (f cursor)) :
    Passes setting (look f) tokens tokens Good :=
  fun state hstate =>
    ⟨_, state, rfl, hstate, rfl, hgood _ hstate.rest hstate.modes⟩

theorem passes_kind :
    Passes setting kind tokens tokens (· = firstKind tokens) :=
  passes_look fun _ hrest _ => hrest.firstKind_eq

theorem passes_check (kind : TokenKind) :
    Passes setting (check kind) tokens tokens
      (· = (firstKind tokens).sameVariant kind) :=
  passes_look fun _ hrest _ => congrArg (·.sameVariant kind) hrest.firstKind_eq

/-- Where a place is read, any place will do. -/
theorem passes_place (f : Cursor → α) :
    Passes setting (look f) tokens tokens fun _ => True :=
  passes_look fun _ _ _ => trivial

theorem passes_current {token : Token} :
    Passes setting (look Cursor.current) (token :: tokens) (token :: tokens)
      (·.kind = token.kind) := by
  refine passes_look fun cursor hrest _ => ?_
  obtain ⟨first, rest, hcons, hkind, -⟩ := hrest.of_cons
  simp [Cursor.current, hcons, hkind]

theorem passes_rounds :
    Passes setting rounds tokens tokens (· = tokens.length + 1) :=
  passes_look fun _ hrest _ => congrArg (· + 1) hrest.length_eq

theorem passes_peekPastNewlines :
    Passes setting (look Cursor.peekPastNewlines) tokens tokens
      (· = firstKind (tokens.dropWhile Token.isNewline)) :=
  passes_look fun _ hrest _ => hrest.dropNewlines.firstKind_eq

/-- A cursor in a setting counts line feeds as the setting does. -/
theorem newlinesCount_eq {cursor : Cursor}
    (hmodes : cursor.modes = setting.modes) :
    cursor.newlinesCount = setting.newlinesCount :=
  congrArg (fun modes : List Bool => modes.head?.getD true) hmodes

theorem passes_peek (n : Nat) :
    Passes setting (look fun cursor => cursor.peek n) tokens tokens
      (· = Cursor.peekIn setting.newlinesCount n tokens) :=
  passes_look fun _ hrest hmodes => by
    rw [Cursor.peek, newlinesCount_eq hmodes, hrest.peekIn_eq]

theorem passes_loopDepth :
    Passes setting (Step.read ParserState.loopDepth) tokens tokens
      (· = setting.loopDepth) :=
  fun state hstate => ⟨_, state, rfl, hstate, rfl, hstate.loopDepth⟩

private theorem at_advance {state : ParserState} {token : Token}
    (hstate : state.At setting (token :: tokens)) (heof : token.kind ≠ .eof)
    (hsettles : setting.Settles tokens) :
    ({ state with cursor := state.cursor.advance } : ParserState).At setting
      tokens := by
  have hcount := newlinesCount_eq hstate.modes
  obtain ⟨first, rest, hcons, hkind, hrest⟩ := hstate.rest.of_cons
  have hadvance : state.cursor.advance.rest = rest :=
    Cursor.rest_advance hcons (hkind ▸ heof)
      (hcount ▸ hrest.firstKind_eq ▸ hsettles)
  exact ⟨hadvance ▸ hrest, (Cursor.modes_advance _).trans hstate.modes,
    hstate.loopDepth⟩

theorem passes_advance {token : Token} (heof : token.kind ≠ .eof)
    (hsettles : setting.Settles tokens) :
    Passes setting advance (token :: tokens) tokens fun _ => True :=
  fun _ hstate =>
    ⟨_, _, rfl, at_advance hstate heof hsettles, rfl, trivial⟩

private theorem check_eq {state : ParserState}
    (hstate : state.At setting tokens) (kind : TokenKind) :
    state.cursor.check kind = (firstKind tokens).sameVariant kind :=
  congrArg (·.sameVariant kind) hstate.rest.firstKind_eq

theorem passes_eat {kind : TokenKind} {token : Token}
    (hkind : token.kind.sameVariant kind = true) (heof : token.kind ≠ .eof)
    (hsettles : setting.Settles tokens) :
    Passes setting (eat kind) (token :: tokens) tokens (· = true) := by
  intro state hstate
  have hcheck : state.cursor.check kind = true :=
    (check_eq hstate kind).trans hkind
  refine ⟨true, { state with cursor := state.cursor.advance }, ?_,
    at_advance hstate heof hsettles, rfl, rfl⟩
  simp [eat, Cursor.eat, hcheck]

theorem passes_uneaten {kind : TokenKind}
    (hkind : (firstKind tokens).sameVariant kind = false) :
    Passes setting (eat kind) tokens tokens (· = false) := by
  intro state hstate
  have hcheck : state.cursor.check kind = false :=
    (check_eq hstate kind).trans hkind
  refine ⟨false, state, ?_, hstate, rfl, rfl⟩
  simp [eat, Cursor.eat, hcheck]

theorem passes_expect {kind : TokenKind} {token : Token}
    (hkind : token.kind.sameVariant kind = true) (heof : token.kind ≠ .eof)
    (hsettles : setting.Settles tokens) :
    Passes setting (expect kind) (token :: tokens) tokens fun _ => True := by
  intro state hstate
  have hcheck : state.cursor.check kind = true :=
    (check_eq hstate kind).trans hkind
  refine ⟨state.cursor.current, { state with cursor := state.cursor.advance },
    ?_, at_advance hstate heof hsettles, rfl, trivial⟩
  simp [expect, ofCursor, Cursor.expect, hcheck]

theorem passes_expectIdent {name : String} {token : Token}
    (hkind : token.kind = .ident name) (hsettles : setting.Settles tokens) :
    Passes setting expectIdent (token :: tokens) tokens (· = name) := by
  intro state hstate
  have hname : state.cursor.kind = .ident name :=
    hstate.rest.firstKind_eq.trans hkind
  have hident : state.cursor.ident? = some name := by
    simp [Cursor.ident?, hname]
  refine ⟨name, { state with cursor := state.cursor.advance }, ?_,
    at_advance hstate (by simp [hkind]) hsettles, rfl, rfl⟩
  simp [expectIdent, ofCursor, Cursor.expectIdent, hident]

/-- There are no line feeds to pass over. -/
theorem passes_skipNewlines (hfirst : firstKind tokens ≠ .newline) :
    Passes setting skipNewlines tokens tokens fun _ => True := by
  intro state hstate
  refine ⟨(), { state with cursor := state.cursor.skipNewlines }, rfl, ?_, rfl,
    trivial⟩
  have hskip := Cursor.rest_skipNewlines
    (hstate.rest.firstKind_eq ▸ hfirst : firstKind state.cursor.rest ≠ _)
  exact ⟨hskip ▸ hstate.rest, hstate.modes, hstate.loopDepth⟩

end Passes

section Continues

variable {setting : Setting} {base : Program}
  {before middle after tokens : List Token} {Good : Program → α → Prop}
  {Then : Program → γ → Prop} {parser : Parse β} {last : γ → Parse β}

/-- A parser is what it continues as. -/
theorem continues_here {next : α → Parse β} {value : α}
    (hgood : ∀ program, base.Grows program → Good program value) :
    Continues setting base (next value) tokens tokens next Good :=
  fun state hstate hgrows =>
    ⟨value, state, rfl, hstate, .refl _, hgood _ hgrows⟩

theorem Continues.trans {next : α → Parse β}
    (hfirst : Continues setting base parser before middle next Good)
    (hnext : ∀ program value, base.Grows program → Good program value →
      Continues setting program (next value) middle after last Then) :
    Continues setting base parser before after last Then := by
  intro state hstate hgrows
  obtain ⟨value, between, hrun, hmiddle, hmore, hgood⟩ :=
    hfirst state hstate hgrows
  obtain ⟨other, final, hlast, hafter, hstill, hthen⟩ :=
    hnext between.program value (hgrows.trans hmore) hgood between hmiddle
      (.refl _)
  exact ⟨other, final, hrun.trans hlast, hafter, hmore.trans hstill, hthen⟩

/-- What comes after an accepting parser. -/
theorem Continues.bind {first : Parse α} {next : α → Parse β}
    (hfirst : Accepts setting base first before middle Good)
    (hnext : ∀ program value, base.Grows program → Good program value →
      Continues setting program (next value) middle after last Then) :
    Continues setting base (first >>= next) before after last Then := by
  have hboth : Continues setting base (first >>= next) before middle next
      Good := by
    intro state hstate hgrows
    obtain ⟨value, between, hrun, hmiddle, hmore, hgood⟩ :=
      hfirst state hstate hgrows
    refine ⟨value, between, ?_, hmiddle, hmore, hgood⟩
    simp only [bind_apply, hrun, pure_apply]
  exact hboth.trans hnext

/-- What comes after a passing parser starts from the same tables. -/
theorem Passes.andThen {Also : α → Prop} {first : Parse α}
    {next : α → Parse β} (hfirst : Passes setting first before middle Also)
    (hnext : ∀ value, Also value →
      Continues setting base (next value) middle after last Then) :
    Continues setting base (first >>= next) before after last Then := by
  intro state hstate hgrows
  obtain ⟨value, between, hrun, hmiddle, hsame, halso⟩ := hfirst state hstate
  obtain ⟨other, final, hlast, hafter, hmore, hthen⟩ :=
    hnext value halso between hmiddle (hsame ▸ hgrows)
  refine ⟨other, final, ?_, hafter, hsame ▸ hmore, hthen⟩
  simp only [bind_apply, hrun, hlast]

theorem Continues.mono {next : α → Parse β} {Better : Program → α → Prop}
    (hparser : Continues setting base parser before after next Good)
    (himp : ∀ program value, base.Grows program → Good program value →
      Better program value) :
    Continues setting base parser before after next Better := by
  intro state hstate hgrows
  obtain ⟨value, final, hrun, hafter, hmore, hgood⟩ :=
    hparser state hstate hgrows
  exact ⟨value, final, hrun, hafter, hmore,
    himp _ _ (hgrows.trans hmore) hgood⟩

/-- The place of an expression can be read if the expression is there. -/
theorem Continues.spanOf {id : ExprId} {next : Span → Parse β}
    (hexpr : base.HasExpr id)
    (hnext : ∀ span, Continues setting base (next span) before after last Then) :
    Continues setting base (spanOf id >>= next) before after last Then := by
  intro state hstate hgrows
  obtain ⟨row, hrow⟩ := hexpr.grows hgrows
  obtain ⟨value, final, hrun, hrest⟩ := hnext row.span state hstate hgrows
  refine ⟨value, final, ?_, hrest⟩
  simpa [Parse.spanOf, expr, bind_apply, found, hrow, Outcome.ofOption]
    using hrun

/-- The row of an expression. -/
theorem Continues.row {id : ExprId} {form : ExprKind → Prop}
    {next : Expr → Parse β} (hexpr : base.ExprIs id form)
    (hnext : ∀ row : Expr, form row.kind →
      Continues setting base (next row) before after last Then) :
    Continues setting base (expr id >>= next) before after last Then := by
  intro state hstate hgrows
  obtain ⟨row, hrow, hform⟩ := hexpr.grows hgrows fun _ hform => hform
  obtain ⟨value, final, hrun, hrest⟩ := hnext row hform state hstate hgrows
  refine ⟨value, final, ?_, hrest⟩
  simpa [expr, bind_apply, found, hrow, Outcome.ofOption] using hrun

end Continues

section Accepts

variable {setting : Setting} {base : Program}
  {before after tokens : List Token} {Good : Program → α → Prop}

theorem accepts_pure {value : α}
    (hgood : ∀ program, base.Grows program → Good program value) :
    Accepts setting base (pure value) tokens tokens Good :=
  continues_here hgood

theorem Accepts.within (context : ParseContext) {parser : Parse α}
    (hparser : Accepts setting base parser before after Good) :
    Accepts setting base (within context parser) before after Good := by
  intro state hstate hgrows
  obtain ⟨value, final, hrun, hrest⟩ := hparser state hstate hgrows
  refine ⟨value, final, ?_, hrest⟩
  simp [Parse.within, mapError, hrun]

/-- In a region of its own, a parser accepts what it does in the setting of the
region. -/
theorem Accepts.inRegion {newlinesCount : Bool} {parser : Parse α}
    (hparser : Accepts ⟨newlinesCount :: setting.modes, setting.loopDepth⟩ base
      parser before after Good)
    (hfirst : newlinesCount = false → firstKind before ≠ .newline) :
    Accepts setting base (inRegion newlinesCount parser) before after Good := by
  intro state hstate hgrows
  have hrest : SameKinds (state.cursor.push newlinesCount).rest before := by
    rw [Cursor.push, Cursor.rest_settle]
    · exact hstate.rest
    · intro hcount
      simp only [hstate.rest.firstKind_eq]
      exact hfirst hcount
  have hmodes : (state.cursor.push newlinesCount).modes =
      newlinesCount :: setting.modes := by
    rw [Cursor.modes_push, hstate.modes]
  obtain ⟨value, final, hrun, hafter, hmore, hgood⟩ := hparser
    { state with cursor := state.cursor.push newlinesCount }
    ⟨hrest, hmodes, hstate.loopDepth⟩ hgrows
  refine ⟨value, { final with cursor := final.cursor.pop }, ?_,
    ⟨hafter.rest, by simp [hafter.modes], hafter.loopDepth⟩, hmore, hgood⟩
  simp [Parse.inRegion, move, bind_apply, hrun]

/-- There is one more loop around the body of a loop. -/
theorem Accepts.inLoop {parser : Parse α}
    (hparser : Accepts ⟨setting.modes, setting.loopDepth + 1⟩ base parser before
      after Good) :
    Accepts setting base (inLoop parser) before after Good := by
  intro state hstate hgrows
  obtain ⟨value, final, hrun, hafter, hmore, hgood⟩ := hparser
    { state with loopDepth := state.loopDepth + 1 }
    ⟨hstate.rest, hstate.modes, by simp [hstate.loopDepth]⟩ hgrows
  refine ⟨value, { final with loopDepth := final.loopDepth - 1 }, ?_,
    ⟨hafter.rest, hafter.modes, by simp [hafter.loopDepth]⟩, hmore, hgood⟩
  simp [Parse.inLoop, bind_apply, hrun]

/-- There are no loops around the body of a function. -/
theorem Accepts.inFunction {parser : Parse α}
    (hparser : Accepts ⟨setting.modes, 0⟩ base parser before after Good) :
    Accepts setting base (inFunction parser) before after Good := by
  intro state hstate hgrows
  obtain ⟨value, final, hrun, hafter, hmore, hgood⟩ := hparser
    { state with loopDepth := 0 } ⟨hstate.rest, hstate.modes, rfl⟩ hgrows
  refine ⟨value, { final with loopDepth := state.loopDepth }, ?_,
    ⟨hafter.rest, hafter.modes, hstate.loopDepth⟩, hmore, hgood⟩
  simp [Parse.inFunction, bind_apply, hrun]

private theorem accepts_add {f : Program → α × Program}
    (hgrows : ∀ program : Program, program.Grows (f program).2)
    (hgood : ∀ program, base.Grows program →
      Good (f program).2 (f program).1) :
    Accepts setting base (add f) tokens tokens Good :=
  fun state hstate hmore =>
    ⟨_, { state with program := (f state.program).2 }, rfl,
      ⟨hstate.rest, hstate.modes, hstate.loopDepth⟩, hgrows _, hgood _ hmore⟩

theorem accepts_addExpr {kind : ExprKind} {tree : Tree .expr} (span : Span)
    (hat : tree.At base kind) :
    Accepts setting base (addExpr kind span) tokens tokens
      fun program id => program.ExprIs id (tree.At program) := by
  apply accepts_add fun _ => Program.grows_addExpr _ _
  intro program hgrows
  exact ⟨_, program.expr?_addExpr _,
    (hat.grows hgrows).grows (Program.grows_addExpr _ _)⟩

theorem accepts_addStmt {inLoop : Bool} {kind : StmtKind}
    {tree : Tree (.stmt inLoop)} (span : Span) (hat : tree.At base kind) :
    Accepts setting base (addStmt kind span) tokens tokens
      fun program id => program.StmtIs id (tree.At program) := by
  apply accepts_add fun _ => Program.grows_addStmt _ _
  intro program hgrows
  exact ⟨_, program.stmt?_addStmt _,
    (hat.grows hgrows).grows (Program.grows_addStmt _ _)⟩

theorem accepts_addStmtList {inLoop : Bool} {stmts : List StmtId}
    {tree : Tree (.stmts inLoop)} (hat : tree.At base stmts) :
    Accepts setting base (addStmtList stmts) tokens tokens
      fun program range => program.StmtsAre range (tree.At program) := by
  apply accepts_add fun _ => Program.grows_addStmtList _ _
  intro program hgrows
  exact ⟨stmts, program.stmtList?_addStmtList stmts,
    (hat.grows hgrows).grows (Program.grows_addStmtList _ _)⟩

theorem accepts_addEntries {entries : List Entry} {tree : Tree .entries}
    (hat : tree.At base entries) :
    Accepts setting base (addEntries entries) tokens tokens
      fun program range => program.EntriesAre range (tree.At program) := by
  apply accepts_add fun _ => Program.grows_addEntries _ _
  intro program hgrows
  exact ⟨entries, program.entries?_addEntries entries,
    (hat.grows hgrows).grows (Program.grows_addEntries _ _)⟩

theorem accepts_addParams {params : List Param} {tree : Tree .params}
    (hat : tree.At base params) :
    Accepts setting base (add fun program => program.addParams params) tokens
      tokens fun program range => program.ParamsAre range (tree.At program) := by
  apply accepts_add fun _ => Program.grows_addParams _ _
  intro program hgrows
  exact ⟨params, program.params?_addParams params,
    (hat.grows hgrows).grows (Program.grows_addParams _ _)⟩

theorem accepts_addNames (names : List String) :
    Accepts setting base (add fun program => program.addNames names) tokens
      tokens fun program range => program.names? range = some names :=
  accepts_add (fun _ => Program.grows_addNames _ _)
    fun program _ => program.names?_addNames names

theorem accepts_noNames :
    Accepts setting base (Step.read fun state => state.program.noNames) tokens
      tokens fun program range => program.names? range = some [] :=
  fun state hstate _ =>
    ⟨_, state, rfl, hstate, .refl _, state.program.names?_noNames⟩

theorem accepts_addFunc {func : FuncDef} {params : Tree .params}
    {body : Tree (.stmts false)}
    (hparams : base.ParamsAre func.params (params.At base))
    (hbody : base.StmtsAre func.body.stmts (body.At base)) :
    Accepts setting base (add fun program => program.addFunc func) tokens
      tokens fun program id => program.FuncIs id func.name (params.At program)
        (body.At program) := by
  apply accepts_add fun _ => Program.grows_addFunc _ _
  intro program hgrows
  have hmore := hgrows.trans (Program.grows_addFunc program func)
  exact ⟨func, program.func?_addFunc func, rfl,
    hparams.grows hmore fun _ hat => hat.grows hmore,
    hbody.grows hmore fun _ hat => hat.grows hmore⟩

end Accepts

end Parse

end ChainScript
