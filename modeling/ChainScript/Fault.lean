import ChainScript.Diagnostic
import ChainScript.Value

/-
Faults and the other ways in which running code is left early.

`return`, `break` and `continue` leave code in the same way as a fault does,
so that every scope on the way is left alike; what tells them apart is the
reason.
-/

namespace ChainScript

/-- Why a value was not of the right kind. -/
inductive Mismatch where
  | described (detail : String)
  /-- A construct that needs one kind got another. -/
  | expected (construct wanted got : String)
  | binary (op left right : String)
  | unary (op operand : String)
  | notCallable (kind : String)
  | invalidKey (kind : String)
deriving Repr, DecidableEq

def Mismatch.detail : Mismatch → String
  | .described detail => detail
  | .expected construct wanted got =>
      construct ++ " expects " ++ wanted ++ ", got " ++ got
  | .binary op left right =>
      "operator `" ++ op ++ "` cannot be applied to " ++ left ++ " and " ++
        right
  | .unary op operand =>
      "operator `" ++ op ++ "` cannot be applied to " ++ operand
  | .notCallable kind => kind ++ " is not callable"
  | .invalidKey kind =>
      "keys must be non-negative integers or strings, got " ++ kind

/-- Why arguments do not fit a parameter list. -/
inductive ArityIssue where
  | missing (param : String)
  | tooMany (expected got : Nat)
  | unknown (name : String)
deriving Repr, DecidableEq

def ArityIssue.detail : ArityIssue → String
  | .missing param => "missing argument `" ++ param ++ "`"
  | .tooMany expected got =>
      "expected at most " ++ toString expected ++ " positional " ++
        (if expected = 1 then "argument" else "arguments") ++ ", got " ++
        toString got
  | .unknown name => "no parameter named `" ++ name ++ "`"

/-- The causes of runtime faults. -/
inductive Cause where
  | unboundName (name : String)
  | typeMismatch (mismatch : Mismatch)
  | arity (function : String) (issue : ArityIssue)
  | divisionByZero
  | moduloByZero
  | keyNotFound (key : String)
  | integerOverflow (operation : String)
  | recursionLimit (limit : Nat)
  /-- A raised value and its text. -/
  | raised (value : Value) (message : String)
  /-- An error of the host. -/
  | custom (message : String)
deriving Repr, DecidableEq

namespace Cause

def kind : Cause → FaultKind
  | .unboundName _ => .unboundName
  | .typeMismatch _ => .typeMismatch
  | .arity .. => .arityMismatch
  | .divisionByZero | .moduloByZero => .divisionByZero
  | .keyNotFound _ => .keyNotFound
  | .integerOverflow _ => .integerOverflow
  | .recursionLimit _ => .recursionLimit
  | .raised .. => .raised
  | .custom _ => .custom

/-- The name or key that a fault is about. -/
def subject? : Cause → Option String
  | .unboundName name => some name
  | .keyNotFound key => some key
  | .arity function _ => if function.isEmpty then none else some function
  | _ => none

/-- The text of a fault's kind and details. -/
def kindText : Cause → String
  | .unboundName name => "unbound name `" ++ name ++ "`"
  | .typeMismatch mismatch => "type mismatch: " ++ mismatch.detail
  | .arity function issue =>
      if function.isEmpty then "anonymous function: " ++ issue.detail
      else "`" ++ function ++ "`: " ++ issue.detail
  | .divisionByZero | .moduloByZero => "division by zero"
  | .keyNotFound key => "key not found: " ++ key
  | .integerOverflow operation => "integer overflow in " ++ operation
  | .recursionLimit limit =>
      "maximum call depth exceeded (limit: " ++ toString limit ++ ")"
  | .raised .. => "uncaught raise"
  | .custom message => message

/-- The message of a fault.  A remainder by zero and a raised value have a
message of their own. -/
def message : Cause → String
  | .moduloByZero => "modulo by zero"
  | .raised _ message => message
  | cause => cause.kindText

def label : FaultKind → String
  | .unboundName => "not bound in this scope"
  | .typeMismatch => "type mismatch"
  | .arityMismatch => "arguments do not match parameters"
  | .divisionByZero => "division by zero here"
  | .keyNotFound => "key not found"
  | .integerOverflow => "overflow occurred here"
  | .recursionLimit => "call depth limit reached here"
  | .raised => "raised here"
  | .custom => "runtime error"

def suggestions : FaultKind → List String
  | .divisionByZero => ["check the divisor before dividing"]
  | .raised =>
      ["wrap the code in `try \x7b ... \x7d catch e \x7b ... \x7d` to handle it"]
  | .recursionLimit =>
      ["raise the limit with `--max-depth=N` if the recursion is intended"]
  | _ => []

end Cause

/-- Leaving code early without a fault. -/
inductive Signal where
  | return (value : Value)
  | break
  | continue
deriving Repr, DecidableEq

/-- What to say when a signal finds nothing that it leaves. -/
def Signal.message : Signal → String
  | .return _ => "return outside of a function"
  | .break => "break outside of a loop"
  | .continue => "continue outside of a loop"

/-- Why code is left early. -/
inductive Reason where
  | fault (cause : Cause)
  | signal (way : Signal)
deriving Repr, DecidableEq

namespace Reason

/-- The kind that is reported; a stray signal is reported like an error of the
host. -/
def kind : Reason → FaultKind
  | .fault cause => cause.kind
  | .signal _ => .custom

def kindText : Reason → String
  | .fault cause => cause.kindText
  | .signal way => way.message

def message : Reason → String
  | .fault cause => cause.message
  | .signal way => way.message

def subject? : Reason → Option String
  | .fault cause => cause.subject?
  | .signal _ => none

def isSignal : Reason → Bool
  | .signal _ => true
  | .fault _ => false

end Reason

/-- One call of a backtrace: the function's label and the place of the call. -/
structure TraceEntry where
  name : String
  span : Option Span
deriving Repr, DecidableEq

/-- The calls that were active, most recent first. -/
abbrev Backtrace := List TraceEntry

/-- Number of calls that are written out. -/
def Backtrace.shownCalls : Nat := 20

def TraceEntry.text (entry : TraceEntry) (number : Nat) : String :=
  "  " ++ toString number ++ ": " ++ entry.name ++
    match entry.span with
    | some span => " at " ++ span.text
    | none => ""

def Backtrace.text (trace : Backtrace) : String :=
  let shown := (trace.take shownCalls).mapIdx fun number entry =>
    entry.text number
  let hidden := trace.length - shownCalls
  "\n".intercalate shown ++
    if hidden = 0 then ""
    else "\n  ... and " ++ toString hidden ++ " more"

/-- An early exit: why, where, in which calls, and further notes. -/
structure Exit where
  reason : Reason
  span : Option Span := none
  trace : Option Backtrace := none
  notes : List String := []
deriving Repr, DecidableEq

namespace Exit

def ofCause (cause : Cause) : Exit :=
  { reason := .fault cause }

def ofSignal (signal : Signal) : Exit :=
  { reason := .signal signal }

def withSpan (exit : Exit) (span : Span) : Exit :=
  { exit with span := some span }

/-- Name a place, unless a more precise one is named. -/
def orSpan (exit : Exit) (span : Span) : Exit :=
  match exit.span with
  | none => { exit with span := some span }
  | some _ => exit

def withTrace (exit : Exit) (trace : Backtrace) : Exit :=
  { exit with trace := some trace }

def withNote (exit : Exit) (note : String) : Exit :=
  { exit with notes := exit.notes ++ [note] }

/-- The exit on one line. -/
def text (exit : Exit) : String :=
  exit.reason.kind.name ++ ": " ++ exit.reason.message

def traceNotes (exit : Exit) : List String :=
  match exit.trace with
  | none | some [] => []
  | some trace => ["call stack:\n" ++ Backtrace.text trace]

def diagnostic (exit : Exit) : Diagnostic where
  code := .fault exit.reason.kind
  message := exit.reason.message
  labels :=
    match exit.span with
    | some span => [⟨.primary, span, Cause.label exit.reason.kind⟩]
    | none => []
  notes := exit.notes ++ exit.traceNotes
  suggestions := Cause.suggestions exit.reason.kind

@[simp] theorem reason_orSpan (exit : Exit) (span : Span) :
    (exit.orSpan span).reason = exit.reason := by
  unfold orSpan
  split <;> rfl

@[simp] theorem trace_orSpan (exit : Exit) (span : Span) :
    (exit.orSpan span).trace = exit.trace := by
  unfold orSpan
  split <;> rfl

theorem primarySpan?_diagnostic (exit : Exit) :
    exit.diagnostic.primarySpan? = exit.span := by
  obtain ⟨reason, span, trace, notes⟩ := exit
  cases span <;> rfl

end Exit

end ChainScript
