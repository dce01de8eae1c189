import ChainScript.Fault
import ChainScript.LexError
import ChainScript.ParseError
import ChainScript.Report

/-
Why a script did not run to its end, and how that is reported.
-/

namespace ChainScript

/-- Why there is no value of a script. -/
inductive RunError where
  /-- The text of the script could not be had. -/
  | unreadable (name reason : String)
  | lex (error : LexError)
  | parse (error : ParseError)
  | fault (exit : Exit)
deriving Repr, DecidableEq

/-- The statuses that the command line program ends with. -/
inductive ExitStatus where
  | success
  | syntaxError
  | runtimeFault
  /-- The program was called wrongly, or a script could not be read. -/
  | badUse
deriving Repr, DecidableEq

def ExitStatus.code : ExitStatus → UInt32
  | .success => 0
  | .syntaxError => 1
  | .runtimeFault => 2
  | .badUse => 3

theorem ExitStatus.code_injective {left right : ExitStatus}
    (hcode : left.code = right.code) : left = right := by
  revert hcode
  cases left <;> cases right <;> decide

namespace RunError

def status : RunError → ExitStatus
  | .unreadable .. => .badUse
  | .lex _ | .parse _ => .syntaxError
  | .fault _ => .runtimeFault

/-- The error on one line. -/
def message : RunError → String
  | .unreadable name reason => "cannot read `" ++ name ++ "`: " ++ reason
  | .lex error => error.fault.message
  | .parse error => error.fault.message
  | .fault exit => exit.text

/-- What is reported about the script's text; nothing when there is none. -/
def diagnostic? : RunError → Option Diagnostic
  | .unreadable .. => none
  | .lex error => some error.diagnostic
  | .parse error => some error.diagnostic
  | .fault exit => some exit.diagnostic

/-- The error as it is shown to the user. -/
def report (error : RunError) (style : ReportStyle) : String :=
  match error.diagnostic? with
  | some diagnostic => style.render diagnostic
  | none => "error: " ++ error.message ++ "\n"

theorem status_ne_success (error : RunError) : error.status ≠ .success := by
  cases error <;> simp [status]

theorem diagnostic?_eq_none_iff (error : RunError) :
    error.diagnostic? = none ↔
      ∃ name reason, error = .unreadable name reason := by
  cases error <;> simp [diagnostic?]

end RunError

end ChainScript
