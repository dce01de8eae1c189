import ChainScript.Decimal.FloatText
import ChainScript.LexError
import ChainScript.SourceMap
import ChainScript.Text.Quoted
import ChainScript.Token

/-
From characters to tokens.

A text is cut into lexemes, each the longest piece that has one of the shapes
below.  Spaces, tabs, carriage returns and comments between lexemes are
dropped; line feeds are kept, since they end statements.  A lexeme becomes one
token, except that a float-shaped one right after a dot is two member keys
with a dot between them.

Offsets are numbers without a bound here, while a span has room for 32 bits.  So
what is said of tokens and their places is meant for texts of at most
`Span.maxOffset` bytes.  In these, clamping the ends of a span changes nothing,
and in larger ones, which are not supported, the tokens behind that offset would
be clamped to it.
-/

namespace ChainScript

/-- The shape of a lexeme. -/
inductive Shape where
  | newline
  | mark (mark : Mark)
  | word
  | integer
  | decimal
  | text
  /-- A quote that reaches the end of its line. -/
  | openText
deriving Repr, DecidableEq

/-- A piece of text and its shape. -/
structure Lexeme where
  shape : Shape
  text : List Char
deriving Repr, DecidableEq

def isWordStart (c : Char) : Bool :=
  c.isAlpha || c = '_'

def isWordPart (c : Char) : Bool :=
  c.isAlphanum || c = '_'

/-- The longest punctuation at the start of a text. -/
def scanMark? : List Char → Option Mark
  | '.' :: '.' :: '.' :: _ => some .ellipsis
  | '=' :: '=' :: _ => some .equal
  | '!' :: '=' :: _ => some .notEqual
  | '<' :: '=' :: _ => some .lessEqual
  | '>' :: '=' :: _ => some .greaterEqual
  | c :: _ =>
      match c with
      | '(' => some .openParen
      | ')' => some .closeParen
      | '[' => some .openBracket
      | ']' => some .closeBracket
      | '\x7b' => some .openBrace
      | '\x7d' => some .closeBrace
      | ',' => some .comma
      | ':' => some .colon
      | ';' => some .semicolon
      | '.' => some .dot
      | '@' => some .badge
      | '&' => some .ampersand
      | '=' => some .assign
      | '<' => some .less
      | '>' => some .greater
      | '+' => some .plus
      | '-' => some .minus
      | '*' => some .star
      | '/' => some .slash
      | '%' => some .percent
      | _ => none
  | [] => none

/-- The punctuation found is what the text starts with. -/
theorem scanMark?_eq_append {chars : List Char} {mark : Mark}
    (hmark : scanMark? chars = some mark) :
    ∃ rest, chars = mark.spelling.toList ++ rest := by
  unfold scanMark? at hmark
  split at hmark
  case h_6 => split at hmark <;> cases hmark <;> exact ⟨_, rfl⟩
  all_goals cases hmark <;> exact ⟨_, rfl⟩

/-- The exponent at the start of a text, or nothing if there is none. -/
def scanExponent : List Char → List Char
  | mark :: rest =>
      if mark = 'e' ∨ mark = 'E' then
        match rest with
        | first :: digits =>
            if first.isDigit then mark :: rest.takeWhile Char.isDigit
            else if (first = '+' ∨ first = '-') ∧
                (digits.takeWhile Char.isDigit) ≠ [] then
              mark :: first :: digits.takeWhile Char.isDigit
            else []
        | [] => []
      else []
  | [] => []

/-- The exponent found is what the text starts with. -/
theorem scanExponent_eq_append (chars : List Char) :
    ∃ rest, chars = scanExponent chars ++ rest := by
  unfold scanExponent
  split
  · next mark rest =>
    split
    · split
      · next first digits =>
        split
        · exact ⟨(first :: digits).dropWhile Char.isDigit, by simp⟩
        · split
          · exact ⟨digits.dropWhile Char.isDigit, by simp⟩
          · exact ⟨_, rfl⟩
      · exact ⟨_, rfl⟩
    · exact ⟨_, rfl⟩
  · exact ⟨_, rfl⟩

/-- The number at the start of a text that starts with a digit. -/
def scanNumber (chars : List Char) : Lexeme :=
  let whole := chars.takeWhile isDigitOrSeparator
  match chars.dropWhile isDigitOrSeparator with
  | '.' :: first :: rest =>
      if first.isDigit then
        let fraction := (first :: rest).takeWhile isDigitOrSeparator
        let exponent :=
          scanExponent ((first :: rest).dropWhile isDigitOrSeparator)
        ⟨.decimal, whole ++ '.' :: (fraction ++ exponent)⟩
      else ⟨.integer, whole⟩
  | _ => ⟨.integer, whole⟩

theorem scanNumber_eq_append (chars : List Char) :
    ∃ rest, chars = (scanNumber chars).text ++ rest := by
  have hsplit := List.takeWhile_append_dropWhile
    (p := isDigitOrSeparator) (l := chars)
  unfold scanNumber
  dsimp only
  split
  · next first rest htail =>
    split
    · obtain ⟨after, hafter⟩ := scanExponent_eq_append
        ((first :: rest).dropWhile isDigitOrSeparator)
      have hfraction := List.takeWhile_append_dropWhile
        (p := isDigitOrSeparator) (l := first :: rest)
      refine ⟨after, ?_⟩
      simp only [List.append_assoc, List.cons_append]
      rw [← hafter, hfraction, ← htail, hsplit]
    · exact ⟨_, hsplit.symm⟩
  · exact ⟨_, hsplit.symm⟩

/-- The content of a string literal at the start of a text: everything up to
a quote, the end of the line, or a backslash that ends the line. -/
def scanContent : List Char → List Char
  | [] => []
  | c :: rest =>
      if c = '\\' then
        match rest with
        | [] => []
        | letter :: after =>
            if letter = '\n' then [] else c :: letter :: scanContent after
      else if c = '"' ∨ c = '\n' ∨ c = '\r' then []
      else c :: scanContent rest

theorem scanContent_eq_append (chars : List Char) :
    ∃ rest, chars = scanContent chars ++ rest := by
  fun_induction scanContent chars with
  | case1 => exact ⟨[], rfl⟩
  | case2 => exact ⟨_, rfl⟩
  | case3 => exact ⟨_, rfl⟩
  | case4 letter after hletter ih =>
      obtain ⟨rest, hrest⟩ := ih
      exact ⟨rest, by simp [← hrest]⟩
  | case5 => exact ⟨_, rfl⟩
  | case6 c rest hc hplain ih =>
      obtain ⟨after, hafter⟩ := ih
      exact ⟨after, by simp [← hafter]⟩

/-- The string literal of a text that starts with a quote, given without it. -/
def scanText (chars : List Char) : Lexeme :=
  let content := scanContent chars
  if (chars.drop content.length).head? = some '"' then
    ⟨.text, '"' :: (content ++ ['"'])⟩
  else ⟨.openText, '"' :: content⟩

theorem scanText_eq_append (chars : List Char) :
    ∃ rest, '"' :: chars = (scanText chars).text ++ rest := by
  obtain ⟨rest, hrest⟩ := scanContent_eq_append chars
  unfold scanText
  dsimp only
  split
  · next hquote =>
    have hdrop : chars.drop (scanContent chars).length = rest :=
      (congrArg (List.drop (scanContent chars).length) hrest).trans
        List.drop_left
    rw [hdrop] at hquote
    obtain ⟨after, rfl⟩ := List.head?_eq_some_iff.mp hquote
    exact ⟨after, by simp [← hrest]⟩
  · exact ⟨rest, by simp [← hrest]⟩

/-- The longest lexeme at the start of a text. -/
def scan? : List Char → Option Lexeme
  | [] => none
  | c :: rest =>
      if c = '\n' then some ⟨.newline, [c]⟩
      else if isWordStart c then
        some ⟨.word, c :: rest.takeWhile isWordPart⟩
      else if c.isDigit then some (scanNumber (c :: rest))
      else if c = '"' then some (scanText rest)
      else
        (scanMark? (c :: rest)).map fun mark =>
          ⟨.mark mark, mark.spelling.toList⟩

/-- A lexeme is what the text starts with. -/
theorem scan?_eq_append {chars : List Char} {lexeme : Lexeme}
    (hscan : scan? chars = some lexeme) :
    ∃ rest, chars = lexeme.text ++ rest := by
  unfold scan? at hscan
  split at hscan
  · cases hscan
  · next c rest =>
    split at hscan
    · cases hscan
      exact ⟨rest, rfl⟩
    · split at hscan
      · cases hscan
        exact ⟨rest.dropWhile isWordPart, by simp⟩
      · split at hscan
        · cases hscan
          exact scanNumber_eq_append (c :: rest)
        · split at hscan
          · next hquote =>
            cases hscan
            subst hquote
            exact scanText_eq_append rest
          · obtain ⟨mark, hmark, rfl⟩ := Option.map_eq_some_iff.mp hscan
            exact scanMark?_eq_append hmark

/-- Every lexeme has a character, so cutting a text into lexemes ends. -/
theorem scan?_text_ne_nil {chars : List Char} {lexeme : Lexeme}
    (hscan : scan? chars = some lexeme) : lexeme.text ≠ [] := by
  unfold scan? at hscan
  split at hscan
  · cases hscan
  · next c rest =>
    split at hscan
    · cases hscan
      simp
    · split at hscan
      · cases hscan
        simp
      · split at hscan
        · next hdigit =>
          cases hscan
          have hwhole : (c :: rest).takeWhile isDigitOrSeparator ≠ [] := by
            simp [isDigitOrSeparator, hdigit]
          unfold scanNumber
          dsimp only
          split
          · split <;> simp [hwhole]
          · exact hwhole
        · split at hscan
          · cases hscan
            unfold scanText
            dsimp only
            split <;> simp
          · obtain ⟨mark, _, rfl⟩ := Option.map_eq_some_iff.mp hscan
            exact mark.spelling_ne_empty

/-- The token of a word: a keyword if it is spelled like one. -/
def wordKind (word : String) : TokenKind :=
  match Keyword.ofSpelling? word with
  | some keyword => .keyword keyword
  | none => .ident word

/-- Two member keys and the dot between them, from a lexeme such as `0.1`. -/
def memberPair (text : List Char) (start : Nat) : Except LexError (List Token) :=
  let left := text.takeWhile (· ≠ '.')
  let right := (text.dropWhile (· ≠ '.')).drop 1
  let dot := start + utf8Length left
  let stop := start + utf8Length text
  match readInteger? left, readInteger? right,
      right.any fun c => c = 'e' || c = 'E' with
  | some first, some second, false =>
      .ok [⟨.int first, ⟨start, dot⟩⟩, ⟨.mark .dot, ⟨dot, dot + 1⟩⟩,
        ⟨.int second, ⟨dot + 1, stop⟩⟩]
  | _, _, _ =>
      .error ⟨⟨start, stop⟩, .invalidNumber (String.ofList text)⟩

/-- The kind of the single token of a lexeme that starts at `start`. -/
def Lexeme.kind (lexeme : Lexeme) (start : Nat) : Except LexError TokenKind :=
  let span : Span := ⟨start, start + utf8Length lexeme.text⟩
  let badNumber : LexError :=
    ⟨span, .invalidNumber (String.ofList lexeme.text)⟩
  match lexeme.shape with
  | .newline => .ok .newline
  | .mark mark => .ok (.mark mark)
  | .word => .ok (wordKind (String.ofList lexeme.text))
  | .integer =>
      match readInteger? lexeme.text with
      | some value => .ok (.int value)
      | none => .error badNumber
  | .decimal =>
      match readFloat? lexeme.text with
      | some value => .ok (.float value)
      | none => .error badNumber
  | .text =>
      match unquoteFrom (start + 1) (lexeme.text.drop 1).dropLast with
      | .ok content => .ok (.str (String.ofList content))
      | .error bad =>
          .error ⟨⟨bad.offset, bad.offset + 1 + bad.letter.utf8Size⟩,
            .invalidEscape bad.letter⟩
  | .openText => .error ⟨span, .unterminatedString⟩

/-- The tokens of a lexeme that starts at `start`. -/
def Lexeme.tokens (lexeme : Lexeme) (afterDot : Bool) (start : Nat) :
    Except LexError (List Token) :=
  if lexeme.shape = .decimal ∧ afterDot then memberPair lexeme.text start
  else
    (lexeme.kind start).map fun kind =>
      [⟨kind, ⟨start, start + utf8Length lexeme.text⟩⟩]

/-- The list ends in a dot. -/
def endsInDot (tokens : List Token) : Bool :=
  match tokens.getLast? with
  | some token => token.kind == .mark .dot
  | none => false

def isBlank (c : Char) : Bool :=
  c = ' ' || c = '\t' || c = '\r'

/-- The tokens of a text that starts at `offset`, given whether the token
before it is a dot.  The allowance is at least the length of the text. -/
def lexFrom : Nat → Bool → Nat → List Char → Except LexError (List Token)
  | 0, _, offset, _ => .ok [⟨.eof, .point offset⟩]
  | _ + 1, _, offset, [] => .ok [⟨.eof, .point offset⟩]
  | allowance + 1, afterDot, offset, c :: rest =>
      if isBlank c then lexFrom allowance afterDot (offset + c.utf8Size) rest
      else if c = '#' then
        lexFrom allowance afterDot
          (offset + c.utf8Size + utf8Length (rest.takeWhile (· ≠ '\n')))
          (rest.dropWhile (· ≠ '\n'))
      else
        match scan? (c :: rest) with
        | none =>
            .error ⟨⟨offset, offset + c.utf8Size⟩, .invalidCharacter c⟩
        | some lexeme =>
            match lexeme.tokens afterDot offset with
            | .error error => .error error
            | .ok tokens =>
                (lexFrom allowance (endsInDot tokens)
                  (offset + utf8Length lexeme.text)
                  ((c :: rest).drop lexeme.text.length)).map (tokens ++ ·)

/-- The tokens of a script, ended by the end-of-file token. -/
def lex (source : String) : Except LexError (List Token) :=
  let chars := source.toList
  lexFrom chars.length false 0 chars

end ChainScript
