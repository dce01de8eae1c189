/-
The catalogue of everything that can go wrong with a script: stable codes,
their short descriptions, and the kinds of runtime fault that a script can
name in a `catch` list.
-/

namespace ChainScript

/-- The kinds of runtime fault. -/
inductive FaultKind where
  | unboundName
  | typeMismatch
  | arityMismatch
  | divisionByZero
  | keyNotFound
  | integerOverflow
  | recursionLimit
  | raised
  | custom
deriving Repr, DecidableEq

namespace FaultKind

/-- Every kind, in the order of its code. -/
def all : List FaultKind :=
  [.unboundName, .typeMismatch, .arityMismatch, .divisionByZero, .keyNotFound,
    .integerOverflow, .recursionLimit, .raised, .custom]

/-- The kind as written in a `catch` list. -/
def name : FaultKind → String
  | .unboundName => "UnboundName"
  | .typeMismatch => "TypeMismatch"
  | .arityMismatch => "ArityMismatch"
  | .divisionByZero => "DivisionByZero"
  | .keyNotFound => "KeyNotFound"
  | .integerOverflow => "IntegerOverflow"
  | .recursionLimit => "RecursionLimit"
  | .raised => "Raised"
  | .custom => "Custom"

theorem mem_all (kind : FaultKind) : kind ∈ all := by
  cases kind <;> decide

theorem name_injective {left right : FaultKind}
    (hname : left.name = right.name) : left = right := by
  revert hname
  cases left <;> cases right <;> decide

/-- A word that spells a kind. -/
def isName (word : String) : Bool :=
  all.any fun kind => kind.name == word

theorem isName_iff (word : String) :
    isName word = true ↔ ∃ kind : FaultKind, kind.name = word := by
  simp only [isName, List.any_eq_true, beq_iff_eq]
  exact ⟨fun ⟨kind, _, hname⟩ => ⟨kind, hname⟩,
    fun ⟨kind, hname⟩ => ⟨kind, mem_all kind, hname⟩⟩

end FaultKind

/-- The stage that reports an error. -/
inductive Phase where
  | lex
  | parse
  | runtime
deriving Repr, DecidableEq

/-- The stable identifier of an error. -/
inductive ErrorCode where
  | unterminatedString
  | invalidCharacter
  | invalidNumber
  | invalidEscape
  | unexpectedToken
  | expectedExpression
  | unclosedDelimiter
  | expectedName
  | expectedBlock
  | invalidTarget
  | outsideLoop
  | chainedComparison
  | kindAsBinding
  | fault (kind : FaultKind)
deriving Repr, DecidableEq

namespace ErrorCode

/-- Every code, in the order of its text. -/
def all : List ErrorCode :=
  [.unterminatedString, .invalidCharacter, .invalidNumber, .invalidEscape,
    .unexpectedToken, .expectedExpression, .unclosedDelimiter, .expectedName,
    .expectedBlock, .invalidTarget, .outsideLoop, .chainedComparison,
    .kindAsBinding] ++ FaultKind.all.map .fault

theorem mem_all (code : ErrorCode) : code ∈ all := by
  cases code with
  | fault kind =>
      exact List.mem_append_right _
        (List.mem_map.mpr ⟨kind, kind.mem_all, rfl⟩)
  | _ => decide

/-- The code as written in reports. -/
def text : ErrorCode → String
  | .unterminatedString => "E0001"
  | .invalidCharacter => "E0002"
  | .invalidNumber => "E0003"
  | .invalidEscape => "E0004"
  | .unexpectedToken => "E1001"
  | .expectedExpression => "E1002"
  | .unclosedDelimiter => "E1003"
  | .expectedName => "E1004"
  | .expectedBlock => "E1005"
  | .invalidTarget => "E1006"
  | .outsideLoop => "E1007"
  | .chainedComparison => "E1008"
  | .kindAsBinding => "E1009"
  | .fault .unboundName => "E6001"
  | .fault .typeMismatch => "E6002"
  | .fault .arityMismatch => "E6003"
  | .fault .divisionByZero => "E6004"
  | .fault .keyNotFound => "E6005"
  | .fault .integerOverflow => "E6006"
  | .fault .recursionLimit => "E6007"
  | .fault .raised => "E6008"
  | .fault .custom => "E6099"

/-- What the code means, for a report that has no message of its own. -/
def description : ErrorCode → String
  | .unterminatedString => "unterminated string literal"
  | .invalidCharacter => "invalid character in source"
  | .invalidNumber => "invalid number literal"
  | .invalidEscape => "invalid escape sequence"
  | .unexpectedToken => "unexpected token"
  | .expectedExpression => "expected an expression"
  | .unclosedDelimiter => "unclosed delimiter"
  | .expectedName => "expected a name"
  | .expectedBlock => "expected a block"
  | .invalidTarget => "invalid assignment target"
  | .outsideLoop => "`break` or `continue` outside of a loop"
  | .chainedComparison => "chained comparison"
  | .kindAsBinding => "fault kind used as a `catch` binding"
  | .fault .unboundName => "unbound name"
  | .fault .typeMismatch => "type mismatch"
  | .fault .arityMismatch => "arity mismatch"
  | .fault .divisionByZero => "division by zero"
  | .fault .keyNotFound => "key not found"
  | .fault .integerOverflow => "integer overflow"
  | .fault .recursionLimit => "recursion limit exceeded"
  | .fault .raised => "uncaught raised value"
  | .fault .custom => "error raised by a host function"

/-- The stage that reports the code. -/
def phase : ErrorCode → Phase
  | .unterminatedString | .invalidCharacter | .invalidNumber
  | .invalidEscape => .lex
  | .fault _ => .runtime
  | _ => .parse

/-- The runtime fault behind a code. -/
def faultKind? : ErrorCode → Option FaultKind
  | .fault kind => some kind
  | _ => none

/-- The code with a given text. -/
def ofText? (word : String) : Option ErrorCode :=
  all.find? fun code => code.text == word

theorem ofText?_text (code : ErrorCode) : ofText? code.text = some code := by
  cases code with
  | fault kind => cases kind <;> decide
  | _ => decide

end ErrorCode

end ChainScript
