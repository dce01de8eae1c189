import ChainScript.ParseError

/-
A place in a list of tokens.

Line feeds end statements, except inside parentheses and brackets.  The cursor
keeps a stack of modes for this: while the innermost mode says that line feeds
do not count, every look ahead and every step passes over them.
-/

namespace ChainScript

/-- The tokens before the place, nearest first, the tokens after it, and the
modes, innermost first.  A mode tells whether line feeds count. -/
structure Cursor where
  passed : List Token
  rest : List Token
  modes : List Bool
deriving Repr, DecidableEq

def Token.isNewline (token : Token) : Bool :=
  token.kind == .newline

/-- The kind of the first token; past the end there is only end of file. -/
def firstKind : List Token → TokenKind
  | token :: _ => token.kind
  | [] => .eof

/-- Move line feeds from the front of the second list onto the first one. -/
def passNewlines (passed : List Token) : List Token → List Token × List Token
  | [] => (passed, [])
  | token :: rest =>
      if token.isNewline then passNewlines (token :: passed) rest
      else (passed, token :: rest)

theorem passNewlines_snd (passed rest : List Token) :
    (passNewlines passed rest).2 = rest.dropWhile Token.isNewline := by
  induction rest generalizing passed with
  | nil => rfl
  | cons token rest ih =>
      by_cases hnewline : token.isNewline = true
      · simp [passNewlines, hnewline, ih]
      · simp [passNewlines, hnewline]

namespace Cursor

/-- The place in front of all tokens. -/
def start (tokens : List Token) : Cursor :=
  ⟨[], tokens, []⟩

variable (cursor : Cursor)

/-- Line feeds count here.  They do outside of all delimiters. -/
def newlinesCount : Bool :=
  cursor.modes.head?.getD true

/-- The kind of the current token. -/
def kind : TokenKind :=
  firstKind cursor.rest

/-- The current token.  Past the end it is an end of file where the last token
was. -/
def current : Token :=
  match cursor.rest with
  | token :: _ => token
  | [] => ⟨.eof, (cursor.passed.head?.map Token.span).getD .origin⟩

def span : Span :=
  cursor.current.span

/-- Pass over line feeds. -/
def skipNewlines : Cursor :=
  let (passed, rest) := passNewlines cursor.passed cursor.rest
  { cursor with passed, rest }

/-- Pass over line feeds if they do not count. -/
def settle : Cursor :=
  if cursor.newlinesCount then cursor else cursor.skipNewlines

/-- Enter a region. -/
def push (newlinesCount : Bool) : Cursor :=
  { cursor with modes := newlinesCount :: cursor.modes }.settle

/-- Leave the innermost region. -/
def pop : Cursor :=
  { cursor with modes := cursor.modes.tail }

/-- Consume the current token, unless it is the end of file. -/
def advance : Cursor :=
  let moved :=
    match cursor.rest with
    | token :: rest =>
        if token.kind = TokenKind.eof then cursor
        else { cursor with passed := token :: cursor.passed, rest }
    | [] => cursor
  moved.settle

/-- The place of the last consumed token; line feeds are left out where they
do not count. -/
def previousSpan : Span :=
  match cursor.passed.find? fun token =>
      cursor.newlinesCount || !token.isNewline with
  | some token => token.span
  | none => .origin

/-- The kind of the `n`th token from the front of a list, passing over line
feeds if they do not count. -/
def peekIn (newlinesCount : Bool) : Nat → List Token → TokenKind
  | 0, tokens =>
      firstKind (if newlinesCount then tokens
        else tokens.dropWhile Token.isNewline)
  | n + 1, tokens =>
      match if newlinesCount then tokens
          else tokens.dropWhile Token.isNewline with
      | [] => .eof
      | token :: rest =>
          if token.kind = TokenKind.eof then .eof else peekIn newlinesCount n rest

/-- The kind of the `n`th token after the current one. -/
def peek (n : Nat) : TokenKind :=
  peekIn cursor.newlinesCount n cursor.rest

/-- The kind of the first token from here on that is not a line feed. -/
def peekPastNewlines : TokenKind :=
  firstKind (cursor.rest.dropWhile Token.isNewline)

def atEnd : Bool :=
  cursor.kind == .eof

/-- The current token has the given kind; texts of literals are ignored. -/
def check (kind : TokenKind) : Bool :=
  cursor.kind.sameVariant kind

/-- The name at the current place. -/
def ident? : Option String :=
  match cursor.kind with
  | .ident name => some name
  | _ => none

/-- Consume the current token if it has the given kind. -/
def eat (kind : TokenKind) : Bool × Cursor :=
  if cursor.check kind then (true, cursor.advance) else (false, cursor)

/-- Consume a token of the given kind. -/
def expect (kind : TokenKind) : Except ParseError Token × Cursor :=
  if cursor.check kind then (.ok cursor.current, cursor.advance)
  else
    (.error { fault := .unexpected (.token kind) cursor.kind,
              span := cursor.span }, cursor)

/-- Consume a name. -/
def expectIdent : Except ParseError String × Cursor :=
  match cursor.ident? with
  | some name => (.ok name, cursor.advance)
  | none =>
      (.error { fault := .expectedName cursor.kind, span := cursor.span },
        cursor)

@[simp] theorem modes_skipNewlines :
    cursor.skipNewlines.modes = cursor.modes :=
  rfl

@[simp] theorem modes_settle : cursor.settle.modes = cursor.modes := by
  unfold settle
  split <;> rfl

@[simp] theorem modes_advance : cursor.advance.modes = cursor.modes := by
  unfold advance
  cases cursor.rest with
  | nil => simp
  | cons token rest =>
      by_cases heof : token.kind = TokenKind.eof <;> simp [heof]

@[simp] theorem modes_push (newlinesCount : Bool) :
    (cursor.push newlinesCount).modes = newlinesCount :: cursor.modes := by
  simp [push]

@[simp] theorem modes_pop : cursor.pop.modes = cursor.modes.tail :=
  rfl

@[simp] theorem modes_eat (kind : TokenKind) :
    (cursor.eat kind).2.modes = cursor.modes := by
  unfold eat
  split <;> simp

@[simp] theorem modes_expect (kind : TokenKind) :
    (cursor.expect kind).2.modes = cursor.modes := by
  unfold expect
  split <;> simp

@[simp] theorem modes_expectIdent :
    cursor.expectIdent.2.modes = cursor.modes := by
  unfold expectIdent
  split <;> simp

theorem kind_current : cursor.current.kind = cursor.kind := by
  unfold current kind
  cases cursor.rest <;> rfl

theorem length_skipNewlines_le :
    cursor.skipNewlines.rest.length ≤ cursor.rest.length := by
  change (passNewlines _ _).2.length ≤ _
  rw [passNewlines_snd]
  exact (List.dropWhile_suffix _).length_le

theorem length_settle_le :
    cursor.settle.rest.length ≤ cursor.rest.length := by
  unfold settle
  split
  · exact Nat.le_refl _
  · exact cursor.length_skipNewlines_le

theorem length_advance_le :
    cursor.advance.rest.length ≤ cursor.rest.length := by
  unfold advance
  refine Nat.le_trans (length_settle_le _) ?_
  split
  · next token rest hrest =>
      split
      · simp [hrest]
      · simp [hrest]
  · simp

/-- A token that is not the end of the file is consumed. -/
theorem length_advance_lt (hkind : cursor.kind ≠ .eof) :
    cursor.advance.rest.length + 1 ≤ cursor.rest.length := by
  unfold advance
  cases hrest : cursor.rest with
  | nil => exact absurd (by simp [kind, hrest, firstKind]) hkind
  | cons token rest =>
      have htoken : token.kind ≠ .eof := by
        simpa [kind, hrest, firstKind] using hkind
      simp only [if_neg htoken]
      have hle := length_settle_le { cursor with
        passed := token :: cursor.passed, rest }
      simpa using hle

theorem kind_ne_of_check {kind : TokenKind} (hcheck : cursor.check kind = true)
    (hkind : kind ≠ .eof) : cursor.kind ≠ .eof := by
  intro heof
  rw [check, heof] at hcheck
  cases kind <;> simp_all [TokenKind.sameVariant]

/-- Nothing can be read off the end of the file. -/
theorem kind_ne_of_some {α : Type} {read? : TokenKind → Option α} {found : α}
    (hend : read? .eof = none) (hfound : read? cursor.kind = some found) :
    cursor.kind ≠ .eof := by
  intro heof
  rw [heof, hend] at hfound
  cases hfound

end Cursor

end ChainScript
