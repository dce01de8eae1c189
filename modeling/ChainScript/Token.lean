import ChainScript.Span

/-
The tokens of a script.
-/

namespace ChainScript

/-- Reserved words. -/
inductive Keyword where
  | andKw
  | asKw
  | breakKw
  | catchKw
  | continueKw
  | doKw
  | elifKw
  | elseKw
  | falseKw
  | forKw
  | fromKw
  | funcKw
  | ifKw
  | inKw
  | inheritKw
  | notKw
  | nullKw
  | orKw
  | raiseKw
  | returnKw
  | trueKw
  | tryKw
  | withKw
deriving Repr, DecidableEq

namespace Keyword

def all : List Keyword :=
  [.andKw, .asKw, .breakKw, .catchKw, .continueKw, .doKw, .elifKw, .elseKw,
    .falseKw, .forKw, .fromKw, .funcKw, .ifKw, .inKw, .inheritKw, .notKw,
    .nullKw, .orKw, .raiseKw, .returnKw, .trueKw, .tryKw, .withKw]

def spelling : Keyword → String
  | .andKw => "and"
  | .asKw => "as"
  | .breakKw => "break"
  | .catchKw => "catch"
  | .continueKw => "continue"
  | .doKw => "do"
  | .elifKw => "elif"
  | .elseKw => "else"
  | .falseKw => "false"
  | .forKw => "for"
  | .fromKw => "from"
  | .funcKw => "func"
  | .ifKw => "if"
  | .inKw => "in"
  | .inheritKw => "inherit"
  | .notKw => "not"
  | .nullKw => "null"
  | .orKw => "or"
  | .raiseKw => "raise"
  | .returnKw => "return"
  | .trueKw => "true"
  | .tryKw => "try"
  | .withKw => "with"

theorem mem_all (keyword : Keyword) : keyword ∈ all := by
  cases keyword <;> decide

/-- The keyword with a given spelling. -/
def ofSpelling? (word : String) : Option Keyword :=
  all.find? fun keyword => keyword.spelling == word

theorem ofSpelling?_spelling (keyword : Keyword) :
    ofSpelling? keyword.spelling = some keyword := by
  cases keyword <;> decide

theorem spelling_of_ofSpelling? {word : String} {keyword : Keyword}
    (hfound : ofSpelling? word = some keyword) : keyword.spelling = word := by
  simpa using List.find?_some hfound

end Keyword

/-- Punctuation. -/
inductive Mark where
  | openParen
  | closeParen
  | openBracket
  | closeBracket
  | openBrace
  | closeBrace
  | comma
  | colon
  | semicolon
  | dot
  | ellipsis
  | badge
  | ampersand
  | assign
  | equal
  | notEqual
  | less
  | lessEqual
  | greater
  | greaterEqual
  | plus
  | minus
  | star
  | slash
  | percent
deriving Repr, DecidableEq

namespace Mark

def spelling : Mark → String
  | .openParen => "("
  | .closeParen => ")"
  | .openBracket => "["
  | .closeBracket => "]"
  | .openBrace => "\x7b"
  | .closeBrace => "\x7d"
  | .comma => ","
  | .colon => ":"
  | .semicolon => ";"
  | .dot => "."
  | .ellipsis => "..."
  | .badge => "@"
  | .ampersand => "&"
  | .assign => "="
  | .equal => "=="
  | .notEqual => "!="
  | .less => "<"
  | .lessEqual => "<="
  | .greater => ">"
  | .greaterEqual => ">="
  | .plus => "+"
  | .minus => "-"
  | .star => "*"
  | .slash => "/"
  | .percent => "%"

theorem spelling_ne_empty (mark : Mark) : mark.spelling.toList ≠ [] := by
  cases mark <;> decide

end Mark

/-- What a token is.  Strings are held without quotes and with their escapes
resolved. -/
inductive TokenKind where
  | int (value : Int64)
  | float (value : Float)
  | str (text : String)
  | ident (name : String)
  | keyword (word : Keyword)
  | mark (symbol : Mark)
  | newline
  | eof
deriving Repr, DecidableEq

namespace TokenKind

/-- The text that describes a kind in messages. -/
def describe : TokenKind → String
  | .int _ => "integer literal"
  | .float _ => "float literal"
  | .str _ => "string literal"
  | .ident _ => "identifier"
  | .keyword word => word.spelling
  | .mark symbol => symbol.spelling
  | .newline => "newline"
  | .eof => "end of file"

/-- The kinds that are written with a text of their own. -/
def hasPayload : TokenKind → Bool
  | .int _ | .float _ | .str _ | .ident _ => true
  | _ => false

/-- The kind as shown in messages: fixed spellings stand in backquotes. -/
def shown (kind : TokenKind) : String :=
  if kind.hasPayload then kind.describe else "`" ++ kind.describe ++ "`"

/-- The two kinds agree when the texts of literals and names are ignored. -/
def sameVariant : TokenKind → TokenKind → Bool
  | .int _, .int _ => true
  | .float _, .float _ => true
  | .str _, .str _ => true
  | .ident _, .ident _ => true
  | left, right => left == right

theorem sameVariant_mark_iff (kind : TokenKind) (symbol : Mark) :
    kind.sameVariant (.mark symbol) = true ↔ kind = .mark symbol := by
  cases kind <;> simp [sameVariant]

theorem sameVariant_keyword_iff (kind : TokenKind) (word : Keyword) :
    kind.sameVariant (.keyword word) = true ↔ kind = .keyword word := by
  cases kind <;> simp [sameVariant]

end TokenKind

/-- A token and its place in the text. -/
structure Token where
  kind : TokenKind
  span : Span
deriving Repr, DecidableEq

/-- The token moved `bytes` to the right. -/
def Token.shift (token : Token) (bytes : Nat) : Token :=
  ⟨token.kind, token.span.shift bytes⟩

end ChainScript
