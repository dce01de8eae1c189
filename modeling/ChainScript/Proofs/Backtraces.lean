import ChainScript.Proofs.CallLimits
import ChainScript.ScriptText

/-
Which calls a backtrace names.

Evaluation leaves a fault without a backtrace until it comes out of a call.  An
evaluation that marks every fault with the active calls as soon as it arises
ends in the same way, since whatever a fault passes on its way to the innermost
call leaves the active calls alone.
-/

namespace ChainScript

open Step

variable {World α β : Type}

/-- The entry of a call in a backtrace. -/
def ActiveCall.entry (call : ActiveCall) : TraceEntry :=
  ⟨functionLabel call.name, call.span⟩

/-- The exit, where a backtrace without calls counts as none. -/
def Exit.withoutEmptyTrace (exit : Exit) : Exit :=
  { exit with trace := exit.trace.filter fun trace => !trace.isEmpty }

namespace CallStack

/-- Mark a fault with the active calls, unless it is marked.  Where no call is
active the mark is an empty backtrace. -/
def mark (stack : CallStack) (exit : Exit) : Exit :=
  if exit.reason.isSignal || exit.trace.isSome then exit
  else exit.withTrace stack.capture

variable {stack pushed : CallStack} {call : ActiveCall} {exit exit' : Exit}

/-- The active calls, outermost first. -/
theorem reverse_capture (stack : CallStack) :
    stack.capture.reverse = stack.calls.toList.map ActiveCall.entry := by
  simp [capture, ActiveCall.entry, List.map_reverse]

theorem calls_push (hpush : stack.push call = .ok pushed) :
    pushed = { stack with calls := stack.calls.push call } := by
  unfold push at hpush
  split at hpush
  · cases hpush
  · exact (Except.ok.inj hpush).symm

theorem capture_push (hpush : stack.push call = .ok pushed) :
    pushed.capture = call.entry :: stack.capture := by
  rw [calls_push hpush]
  simp [capture, ActiveCall.entry]

/-- With a call active, the calls that are noted are those of the mark. -/
theorem attach_push (hpush : stack.push call = .ok pushed) (exit : Exit) :
    pushed.attach exit = pushed.mark exit := by
  have hdepth : pushed.depth ≠ 0 := by
    rw [calls_push hpush]
    simp [depth]
  simp [attach, mark, hdepth]

theorem reason_mark (stack : CallStack) (exit : Exit) :
    (stack.mark exit).reason = exit.reason := by
  unfold mark
  split <;> rfl

theorem mark_of_signal (stack : CallStack) (hsignal : exit.reason.isSignal) :
    stack.mark exit = exit := by
  simp [mark, hsignal]

theorem mark_of_trace (stack : CallStack) {trace : Backtrace}
    (htrace : exit.trace = some trace) : stack.mark exit = exit := by
  simp [mark, htrace]

theorem mark_of_none (stack : CallStack) (hfault : exit.reason.isSignal = false)
    (htrace : exit.trace = none) :
    stack.mark exit = exit.withTrace stack.capture := by
  simp [mark, hfault, htrace]

theorem mark_mark (stack : CallStack) (exit : Exit) :
    stack.mark (stack.mark exit) = stack.mark exit := by
  by_cases hmarked : exit.reason.isSignal || exit.trace.isSome
  · simp [mark, hmarked]
  · simp [mark, hmarked, Exit.withTrace]

/-- A place is named apart from the calls. -/
theorem mark_orSpan (stack : CallStack) (exit : Exit) (span : Span) :
    stack.mark (exit.orSpan span) = (stack.mark exit).orSpan span := by
  obtain ⟨reason, place, trace, notes⟩ := exit
  cases place <;> cases hsignal : reason.isSignal <;> cases trace <;>
    simp [mark, Exit.orSpan, Exit.withTrace, hsignal]

/-- An exit comes out of a call that was made after the active ones, or there is
no backtrace yet. -/
def Traced (stack : CallStack) (exit : Exit) : Prop :=
  exit.trace = none ∨
    ∃ inner entry, exit.trace = some (inner ++ entry :: stack.capture)

/-- A mark makes the exits equal, and the first one has none that does not come
out of a call. -/
structure Alike (stack : CallStack) (exit exit' : Exit) : Prop where
  mark_eq : stack.mark exit' = stack.mark exit
  traced : stack.Traced exit

namespace Alike

theorem self (huntraced : exit.trace = none) : stack.Alike exit exit :=
  ⟨rfl, .inl huntraced⟩

theorem reason_eq (halike : stack.Alike exit exit') :
    exit'.reason = exit.reason := by
  rw [← stack.reason_mark exit', halike.mark_eq, reason_mark]

theorem orSpan (span : Span) (halike : stack.Alike exit exit') :
    stack.Alike (exit.orSpan span) (exit'.orSpan span) where
  mark_eq := by rw [mark_orSpan, mark_orSpan, halike.mark_eq]
  traced := by
    unfold Traced
    rw [Exit.trace_orSpan]
    exact halike.traced

theorem mark (halike : stack.Alike exit exit') :
    stack.Alike exit (stack.mark exit') :=
  ⟨(stack.mark_mark exit').trans halike.mark_eq, halike.traced⟩

end Alike

/-- A fault that leaves a call names the calls that were active in it. -/
theorem Traced.trace_mark (htraced : stack.Traced exit)
    (hfault : exit.reason.isSignal = false) :
    ∃ inner, (stack.mark exit).trace = some (inner ++ stack.capture) := by
  rcases htraced with hnone | ⟨inner, entry, htrace⟩
  · rw [stack.mark_of_none hfault hnone]
    exact ⟨[], rfl⟩
  · rw [stack.mark_of_trace htrace, htrace]
    exact ⟨inner ++ [entry], by simp⟩

theorem Traced.mark_pushed (hpush : stack.push call = .ok pushed)
    (htraced : pushed.Traced exit) : stack.Traced (pushed.mark exit) := by
  have hcapture := capture_push hpush
  rcases htraced with hnone | ⟨inner, entry, htrace⟩
  · cases hsignal : exit.reason.isSignal with
    | true =>
        rw [pushed.mark_of_signal hsignal]
        exact .inl hnone
    | false =>
        rw [pushed.mark_of_none hsignal hnone, hcapture]
        exact .inr ⟨[], _, rfl⟩
  · rw [pushed.mark_of_trace htrace]
    exact .inr ⟨inner ++ [entry], call.entry, by simp [htrace, hcapture]⟩

/-- Exits that are alike within a call are equal when they have left it. -/
theorem Alike.attach (hpush : stack.push call = .ok pushed)
    (halike : pushed.Alike exit exit') :
    pushed.attach exit' = pushed.attach exit ∧
      stack.Alike (pushed.attach exit) (pushed.attach exit') := by
  rw [attach_push hpush, attach_push hpush]
  refine ⟨halike.mark_eq, ?_, halike.traced.mark_pushed hpush⟩
  rw [halike.mark_eq]

/-- Where no call is active, an exit has no backtrace if the mark is empty. -/
theorem Alike.eq_of_inactive (hdepth : stack.depth = 0)
    (halike : stack.Alike exit exit') : exit = exit'.withoutEmptyTrace := by
  have hcapture : stack.capture = [] := by
    simp [capture, Array.eq_empty_of_size_eq_zero hdepth]
  have hreason := halike.reason_eq
  obtain ⟨hmark, htraced⟩ := halike
  obtain ⟨reason, span, trace, notes⟩ := exit
  obtain ⟨reason', span', trace', notes'⟩ := exit'
  obtain rfl : reason' = reason := hreason
  simp only [Traced, hcapture] at htraced
  cases hsignal : reason'.isSignal <;> cases trace' <;>
    rcases htraced with rfl | ⟨inner, entry, rfl⟩ <;>
    simp_all [CallStack.mark, Exit.withTrace, Exit.withoutEmptyTrace,
      Option.filter]

end CallStack

/-- A task is a call of a function, for which there is room: the call, and the
calls that are active in the course of it. -/
inductive Machine.Enters (machine : Machine World) :
    Task → ActiveCall → CallStack → Prop
  | call {id : FunctionId} {function : Function} {calls : CallStack}
      (args : Container Value) {site : Option Span}
      (hfunction : machine.heap.function? id = some function)
      (hpush : machine.calls.push ⟨function.name, site⟩ = .ok calls) :
      machine.Enters (.call id args site) ⟨function.name, site⟩ calls

theorem Machine.Enters.push_eq {machine : Machine World} {task : Task}
    {call : ActiveCall} {calls : CallStack}
    (henters : machine.Enters task call calls) :
    machine.calls.push call = .ok calls := by
  obtain ⟨_, _, hpush⟩ := henters
  exact hpush

namespace Run

/-- Mark the faults of a body with the active calls. -/
def marked (body : Run World α) : Run World α :=
  fun machine =>
    match body machine with
    | (.error exit, after) => (.error (after.calls.mark exit), after)
    | other => other

/-- Two computations end on the same machine, with the active calls that they
started with, and in the same way, up to marks. -/
inductive MarkedAlike (calls : CallStack) :
    Outcome Exit α × Machine World → Outcome Exit α × Machine World → Prop
  | ok (value : α) {after : Machine World} (hcalls : after.calls = calls) :
      MarkedAlike calls (.ok value, after) (.ok value, after)
  | error {exit exit' : Exit} {after : Machine World}
      (hcalls : after.calls = calls) (halike : calls.Alike exit exit') :
      MarkedAlike calls (.error exit, after) (.error exit', after)
  | halted (reason : Halt) {after : Machine World}
      (hcalls : after.calls = calls) :
      MarkedAlike calls (.halted reason, after) (.halted reason, after)

section Ends

variable {calls : CallStack} {ended ended' : Outcome Exit α × Machine World}

theorem MarkedAlike.calls_eq (hended : MarkedAlike calls ended ended') :
    ended.2.calls = calls := by
  cases hended <;> assumption

theorem MarkedAlike.traced {exit : Exit} {after : Machine World}
    (hended : MarkedAlike calls (.error exit, after) ended') :
    calls.Traced exit := by
  cases hended with
  | error _ halike => exact halike.traced

end Ends

/-- With given calls active, the computations end alike, up to marks. -/
def MarksAs (calls : CallStack) (first second : Run World α) : Prop :=
  ∀ machine, machine.calls = calls →
    MarkedAlike calls (first machine) (second machine)

variable {calls : CallStack} {first second : Run World α}

theorem marksAs_recover {next next' : Except Exit α → Run World β}
    (hbody : MarksAs calls first second)
    (hvalue : ∀ value, MarksAs calls (next (.ok value)) (next' (.ok value)))
    (hexit : ∀ exit exit', calls.Alike exit exit' →
      MarksAs calls (next (.error exit)) (next' (.error exit'))) :
    MarksAs calls (Step.attempt first >>= next)
      (Step.attempt second >>= next') := by
  intro machine hcalls
  have hended := hbody machine hcalls
  simp only [bind_apply, Step.attempt]
  generalize first machine = ended, second machine = ended' at hended
  cases hended with
  | ok value hcalls => exact hvalue value _ hcalls
  | error hcalls halike => exact hexit _ _ halike _ hcalls
  | halted reason hcalls => exact .halted reason hcalls

theorem marksAs_between (enter leave : Scene → Scene)
    (hbody : MarksAs calls first second) :
    MarksAs calls (first.between enter leave)
      (second.between enter leave) := by
  intro machine hcalls
  have hended := hbody (machine.withScene (enter machine.scene)) hcalls
  simp only [Run.between]
  generalize first _ = ended, second _ = ended' at hended
  cases hended with
  | ok value hcalls => exact .ok value hcalls
  | error hcalls halike => exact .error hcalls halike
  | halted reason hcalls => exact .halted reason hcalls

/-- Ending alike up to marks is a comparison. -/
def marking (World : Type) (calls : CallStack) : Comparison World World where
  Holds := MarksAs calls
  Alike := calls.Alike
  alike_self := .self
  reason_eq := CallStack.Alike.reason_eq
  orSpan := CallStack.Alike.orSpan
  pure value _ hcalls := .ok value hcalls
  halt reason _ hcalls := .halted reason hcalls
  fail halike _ hcalls := .error hcalls halike
  onScene _ _ hcalls := .ok _ hcalls
  recover := marksAs_recover
  between := marksAs_between

/-- Marks make equal what ends alike up to marks. -/
theorem MarksAs.marked_eq
    (hsame : ∀ calls, MarksAs calls first second) :
    second.marked = first.marked := by
  funext machine
  have hended := hsame machine.calls machine rfl
  unfold marked
  generalize first machine = ended, second machine = ended' at hended
  cases hended with
  | error hcalls halike => simp only [hcalls, halike.mark_eq]
  | _ => rfl

theorem MarksAs.marked (hsame : MarksAs calls first second) :
    MarksAs calls first second.marked := by
  intro machine hcalls
  have hended := hsame machine hcalls
  unfold Run.marked
  generalize first machine = ended, second machine = ended' at hended
  cases hended with
  | ok value hcalls => exact .ok value hcalls
  | error hcalls halike => exact .error hcalls (hcalls ▸ halike.mark)
  | halted reason hcalls => exact .halted reason hcalls

/-- What is alike within a call, up to marks, is so outside of it. -/
theorem MarksAs.inCall (hbody : ∀ calls, MarksAs calls first second)
    (call : ActiveCall) :
    MarksAs calls (inCall call first) (inCall call second) := by
  intro machine hcalls
  cases hpush : machine.calls.push call with
  | error cause =>
      rw [inCall_of_error hpush, inCall_of_error hpush]
      exact .error hcalls (.self rfl)
  | ok pushed =>
      have hpop := CallStack.pop_push hpush
      have hended := hbody pushed { machine with calls := pushed } rfl
      rw [inCall_of_ok hpush, inCall_of_ok hpush]
      simp only [noting]
      generalize first _ = ended, second _ = ended' at hended
      rw [hcalls] at hpush hpop
      cases hended with
      | ok value hafter => exact .ok value (hafter ▸ hpop)
      | error hafter halike =>
          rw [← hafter] at hpush hpop halike
          exact .error hpop (halike.attach hpush).2
      | halted reason hafter => exact .halted reason (hafter ▸ hpop)

end Run

/-- The exits that are replied come without a backtrace. -/
def Reply.Untraced : Reply World → Prop
  | .answer (.ok _) _ => True
  | .answer (.error exit) _ => exit.trace = none
  | .array _ next => ∀ value, (next value).Untraced
  | .compose _ _ next => ∀ result, (next result).Untraced
  | .native _ next => ∀ value, (next value).Untraced

/-- The exits of the host's functions come without a backtrace. -/
def Natives.Untraced (natives : Natives World) : Prop :=
  ∀ name args heap world, (natives.reply name args heap world).Untraced

namespace Comparison

section Hosts

variable (compared : Comparison World World)
  (hread : ∀ work : Machine World → Run World Value,
    (∀ machine, compared.Holds (work machine) (work machine)) →
      compared.Holds (fun machine => work machine machine)
        (fun machine => work machine machine))
  (hworld : ∀ world : World,
    compared.Holds (Step.modify fun machine => { machine with world })
      (Step.modify fun machine => { machine with world }))

include hworld

theorem carryOut {reply : Reply World} (hreply : reply.Untraced) :
    compared.Holds (Run.carryOut reply) (Run.carryOut reply) := by
  induction reply with
  | answer result world =>
      apply compared.bind (hworld world)
      intro _
      cases result with
      | ok value => exact compared.pure value
      | error exit => exact compared.fail_self hreply
  | array content next ih =>
      exact compared.bind (compared.withHeap _) fun value =>
        ih value (hreply value)
  | compose left right next ih =>
      exact compared.bind (compared.compose left right) fun result =>
        ih result (hreply result)
  | native name next ih =>
      exact compared.bind (compared.withHeap _) fun value =>
        ih value (hreply value)

include hread

/-- The code of a function compares as what the workers make of its parts. -/
theorem entered {natives : Natives World} (huntraced : natives.Untraced)
    {worker worker' : Worker World}
    (hworkers : compared.Workers worker worker') (function : Function)
    (args : Container Value) :
    compared.Holds (worker.entered natives function args)
      (worker'.entered natives function args) := by
  unfold Worker.entered
  cases function.body with
  | native =>
      exact hread
        (fun machine => Run.carryOut (natives.reply function.name
          (function.bound.expand args.entries) machine.heap machine.world))
        fun _ => compared.carryOut hworld (huntraced _ _ _ _)
  | script number definition captured =>
      exact hworkers.callScript function.name number definition captured _

end Hosts

end Comparison

/-- Evaluation that marks a fault with the active calls where it arises.  No
expression or statement changes the active calls, and a call notes its own. -/
def evaluateMarking (natives : Natives World) : Nat → Worker World
  | 0, _ => Step.halt .exhausted
  | depth + 1, task =>
      (perform natives (evaluateMarking natives depth) task).marked

section Evaluation

open Run

variable {natives : Natives World} (huntraced : natives.Untraced)
  {calls : CallStack}

include huntraced

theorem Worker.marksAs_entered {worker worker' : Worker World}
    (hworkers : (marking World calls).Workers worker worker')
    (function : Function) (args : Container Value) :
    MarksAs calls (worker.entered natives function args)
      (worker'.entered natives function args) :=
  (marking World calls).entered (fun _ hwork machine => hwork machine machine)
    (fun _ _ hcalls => .ok () hcalls) huntraced hworkers function args

theorem perform_marksAs {worker worker' : Worker World}
    (hworkers : ∀ calls, (marking World calls).Workers worker worker') :
    (marking World calls).Workers (perform natives worker)
      (perform natives worker')
  | .expr id => (hworkers calls).evalExpr id
  | .stmt id => (hworkers calls).evalStmt id
  | .call id args site => by
      apply (marking World calls).bind ((marking World calls).readHeap _)
      intro row
      apply (marking World calls).bind ((marking World calls).found row)
      intro function
      exact MarksAs.inCall (fun calls => Worker.marksAs_entered huntraced
        (hworkers calls) function args) ⟨function.name, site⟩

theorem evaluate_marksAs (depth : Nat) (calls : CallStack) :
    (marking World calls).Workers (evaluate natives depth)
      (evaluateMarking natives depth) := by
  induction depth generalizing calls with
  | zero => exact fun _ _ hcalls => .halted .exhausted hcalls
  | succ depth ih =>
      exact fun task => (perform_marksAs huntraced ih task).marked

/-- Marking every fault where it arises is no different from marking it when the
whole task is left. -/
theorem evaluateMarking_eq (depth : Nat) (task : Task) :
    evaluateMarking natives depth task =
      (evaluate natives depth task).marked := by
  cases depth with
  | zero => rfl
  | succ depth =>
      exact MarksAs.marked_eq fun _ =>
        perform_marksAs huntraced (evaluate_marksAs huntraced depth) task

/-- A fault of a call that found room has a backtrace, and the calls that are
active in the call are the outermost ones in it. -/
theorem exists_trace_of_enters {depth : Nat} {task : Task}
    {machine after : Machine World} {call : ActiveCall} {exit : Exit}
    (henters : machine.Enters task call calls)
    (hend : evaluate natives depth task machine = (.error exit, after))
    (hfault : exit.reason.isSignal = false) :
    ∃ inner, exit.trace = some (inner ++ calls.capture) := by
  obtain @⟨_, function, _, args, _, hfunction, hpush⟩ := henters
  cases depth with
  | zero => cases hend
  | succ depth =>
      change Worker.evalCall _ natives _ args _ machine = _ at hend
      rw [Worker.evalCall_of_some natives _ args _ hfunction,
        inCall_of_ok hpush] at hend
      have hended := Worker.marksAs_entered huntraced
        (evaluate_marksAs huntraced depth calls) function args
        { machine with calls } rfl
      have hcalls := hended.calls_eq
      simp only [noting] at hend
      rcases hbody : (evaluate natives depth).entered natives function args
        { machine with calls } with ⟨outcome, left⟩
      rw [hbody] at hended hcalls hend
      cases outcome with
      | error exit =>
          cases hend
          rw [hcalls, CallStack.attach_push hpush] at hfault ⊢
          rw [CallStack.reason_mark] at hfault
          exact hended.traced.trace_mark hfault
      | ok value => cases hend
      | halted reason => cases hend

theorem script_marksAs (script : Script) :
    MarksAs calls (runScript natives script)
      (Worker.script (evaluateMarking natives) script) := by
  intro machine hcalls
  exact (marking World calls).catchReturn
    ((evaluate_marksAs huntraced machine.depthBound calls).stmts script.body)
    machine hcalls

end Evaluation

/-- The exit with another backtrace, if it has one. -/
def Exit.retrace (change : Backtrace → Backtrace) (exit : Exit) : Exit :=
  { exit with trace := exit.trace.map change }

theorem Exit.retrace_of_none {exit : Exit} (huntraced : exit.trace = none)
    (change : Backtrace → Backtrace) : exit.retrace change = exit := by
  obtain ⟨reason, span, trace, notes⟩ := exit
  obtain rfl : trace = none := huntraced
  rfl

def Outcome.retrace (change : Backtrace → Backtrace) :
    Outcome Exit α → Outcome Exit α
  | .error exit => .error (exit.retrace change)
  | other => other

namespace Run

/-- Change the backtrace that a body ends with. -/
def retraced (change : Backtrace → Backtrace) (body : Run World α) :
    Run World α :=
  body.mapOutcome (Outcome.retrace change)

variable {change : Backtrace → Backtrace}

theorem retraced_apply (body : Run World α) (machine : Machine World) :
    body.retraced change machine =
      ((body machine).1.retrace change, (body machine).2) :=
  rfl

theorem retraced_recover {body : Run World α}
    {next next' : Except Exit α → Run World β}
    (hvalue : ∀ value, next' (.ok value) = retraced change (next (.ok value)))
    (hexit : ∀ exit, next' (.error (exit.retrace change)) =
      retraced change (next (.error exit))) :
    Step.attempt (retraced change body) >>= next' =
      retraced change (Step.attempt body >>= next) := by
  funext machine
  simp only [retraced_apply, bind_apply, Step.attempt]
  rcases body machine with ⟨outcome, after⟩
  cases outcome with
  | ok value => exact congrFun (hvalue value) after
  | error exit => exact congrFun (hexit exit) after
  | halted reason => rfl

/-- Having another backtrace is a comparison. -/
def retracing (World : Type) (change : Backtrace → Backtrace) :
    Comparison World World where
  Holds first second := second = retraced change first
  Alike exit exit' := exit' = exit.retrace change
  alike_self huntraced := (Exit.retrace_of_none huntraced change).symm
  reason_eq halike := halike ▸ rfl
  orSpan span halike := by
    subst halike
    simp only [Exit.orSpan, Exit.retrace]
    split <;> rfl
  pure _ := rfl
  halt _ := rfl
  fail halike := halike ▸ rfl
  onScene _ := rfl
  recover hbody hvalue hexit := by
    subst hbody
    exact retraced_recover hvalue fun exit => hexit exit _ rfl
  between _ _ hbody := by
    subst hbody
    rfl

end Run

theorem CallStack.attach_retrace {stack : CallStack}
    {change : Backtrace → Backtrace}
    (hcapture : change stack.capture = stack.capture) (exit : Exit) :
    stack.attach (exit.retrace change) =
      (stack.attach exit).retrace change := by
  obtain ⟨reason, span, trace, notes⟩ := exit
  by_cases hdepth : stack.depth = 0 <;> cases hsignal : reason.isSignal <;>
    cases trace <;>
    simp [attach, Exit.retrace, Exit.withTrace, hdepth, hsignal, hcapture]

/-- A call passes a backtrace on, when its own is not to be changed. -/
theorem Run.inCall_retraced {body : Run World α}
    {change : Backtrace → Backtrace} {call : ActiveCall}
    {machine : Machine World}
    (hkept : ∀ calls, machine.calls.push call = .ok calls →
      (body { machine with calls }).2.calls = calls ∧
        change calls.capture = calls.capture) :
    inCall call (retraced change body) machine =
      retraced change (inCall call body) machine := by
  rw [retraced_apply]
  cases hpush : machine.calls.push call with
  | error cause =>
      rw [inCall_of_error hpush, inCall_of_error hpush]
      rfl
  | ok calls =>
      obtain ⟨hcalls, hcapture⟩ := hkept calls hpush
      rw [inCall_of_ok hpush, inCall_of_ok hpush]
      simp only [noting, retraced_apply]
      generalize body { machine with calls } = ended at hcalls ⊢
      obtain ⟨outcome, after⟩ := ended
      obtain rfl : after.calls = calls := hcalls
      cases outcome with
      | error exit =>
          simp only [Outcome.retrace, CallStack.attach_retrace hcapture]
      | _ => rfl

/-- What is done with the parts of a task does not depend on the backtraces that
they end with, and passes them on as they are.  Only a call adds a backtrace,
that of the calls in its own course. -/
theorem perform_retraced {natives : Natives World}
    (huntraced : natives.Untraced) (depth : Nat)
    {change : Backtrace → Backtrace} {task : Task} {machine : Machine World}
    (hkept : ∀ call calls, machine.Enters task call calls →
      change calls.capture = calls.capture) :
    perform natives (fun part => (evaluate natives depth part).retraced change)
        task machine =
      (evaluate natives (depth + 1) task).retraced change machine := by
  let retracing := Run.retracing World change
  have hworkers : retracing.Workers (evaluate natives depth) fun part =>
    (evaluate natives depth part).retraced change := fun _ => rfl
  cases task with
  | expr id => exact congrFun (hworkers.evalExpr id) machine
  | stmt id => exact congrFun (hworkers.evalStmt id) machine
  | call id args site =>
      change Worker.evalCall _ natives id args site machine =
        Run.retraced change (Worker.evalCall _ natives id args site) machine
      rw [Run.retraced_apply]
      cases hfunction : machine.heap.function? id with
      | none =>
          rw [Worker.evalCall_of_none _ _ _ _ hfunction,
            Worker.evalCall_of_none _ _ _ _ hfunction]
          rfl
      | some function =>
          have hentered := retracing.entered
            (fun _ hwork => funext fun machine => congrFun (hwork machine) _)
            (fun _ => rfl) huntraced hworkers function args
          rw [Worker.evalCall_of_some _ _ _ _ hfunction,
            Worker.evalCall_of_some _ _ _ _ hfunction, hentered]
          apply Run.inCall_retraced
          intro calls hpush
          have hended := Worker.marksAs_entered huntraced
            (evaluate_marksAs huntraced depth calls) function args
          exact ⟨(hended { machine with calls } rfl).calls_eq,
            hkept _ _ (.call args hfunction hpush)⟩

/-- When the exits of the host's functions come without a backtrace, backtraces
name the active calls.  Evaluation that marks every fault where it arises with
the calls that are active there differs from plain evaluation in marks only.  A
call that finds room ends with the very same exit in both, and its backtrace
names, outermost first, the calls that were active before it, the call itself,
and then those within it.  On the way out a backtrace is neither looked at nor
changed.  A script that runs while no call is active ends with the backtrace of
the mark, if that names a call, and with none otherwise. -/
theorem backtraces_name_active_calls {natives : Natives World}
    (huntraced : natives.Untraced) :
    (∀ depth task machine,
      (evaluate natives depth task machine).2.calls = machine.calls ∧
        evaluateMarking natives depth task machine =
          (evaluate natives depth task).marked machine) ∧
      (∀ depth task machine call calls, machine.Enters task call calls →
        evaluate natives depth task machine =
            evaluateMarking natives depth task machine ∧
          ∀ exit after,
            evaluate natives depth task machine = (.error exit, after) →
              exit.reason.isSignal = false →
                ∃ trace inner, exit.trace = some trace ∧ trace.reverse =
                  (machine.calls.calls.toList ++ [call]).map
                    ActiveCall.entry ++ inner) ∧
      (∀ depth change task machine,
        (∀ call calls, machine.Enters task call calls →
          change calls.capture = calls.capture) →
          perform natives
              (fun part => (evaluate natives depth part).retraced change) task
              machine =
            (evaluate natives (depth + 1) task).retraced change machine) ∧
      ∀ script machine, machine.calls.depth = 0 →
        runScript natives script machine =
          Step.mapError Exit.withoutEmptyTrace
            (Worker.script (evaluateMarking natives) script) machine := by
  refine ⟨fun depth task machine => ?_, ?_,
    fun depth change task machine => perform_retraced huntraced depth,
    fun script machine => ?_⟩
  · exact ⟨(evaluate_marksAs huntraced depth machine.calls task machine
      rfl).calls_eq, congrFun (evaluateMarking_eq huntraced depth task) machine⟩
  · intro depth task machine call calls henters
    refine ⟨?_, fun exit after hend hfault => ?_⟩
    · rw [evaluateMarking_eq huntraced]
      unfold Run.marked
      split
      · next exit after hend =>
          rw [hend]
          cases hsignal : exit.reason.isSignal with
          | true => rw [CallStack.mark_of_signal _ hsignal]
          | false =>
              obtain ⟨inner, htrace⟩ :=
                exists_trace_of_enters huntraced henters hend hsignal
              rw [CallStack.mark_of_trace _ htrace]
      · rfl
    · obtain ⟨inner, htrace⟩ :=
        exists_trace_of_enters huntraced henters hend hfault
      refine ⟨_, inner.reverse, htrace, ?_⟩
      rw [List.reverse_append, CallStack.reverse_capture,
        CallStack.calls_push henters.push_eq, Array.toList_push]
  · intro hdepth
    have hended := script_marksAs huntraced script machine rfl
    unfold Step.mapError
    generalize runScript natives script machine = ended,
      Worker.script (evaluateMarking natives) script machine = ended'
        at hended ⊢
    cases hended with
    | error hcalls halike => rw [halike.eq_of_inactive hdepth]
    | _ => rfl

/-- A host whose functions refuse to answer. -/
def decliningHost : Host Unit where
  respond _ _ world := (.exit (.ofCause (.custom "refused")), world)

/-- A machine on which two functions of a script have been made.  The outer one
calls the inner one, which recovers from a fault before it calls the host. -/
def callingMachine : Machine Unit :=
  match parseText 0
      ("func inner() \x7b try \x7b 1 / 0 \x7d catch \x7b null \x7d\n" ++
        "ask() \x7d\nfunc outer() \x7b inner() \x7d") with
  | .ok parsed =>
      (runScript decliningHost parsed.script
        (.start { functions := #[{ name := "ask", body := .native }] }
          #[parsed.program] 0 (globalFrame [("ask", .function 0)]) 8 ())).2
  | _ => .start .empty #[] 0 .empty 8 ()

/-- The refusal of the host, as it leaves the outer function. -/
def refusal : Exit where
  reason := .fault (.custom "refused")
  span := some ⟨44, 49⟩
  trace := some
    [⟨"ask", some ⟨44, 49⟩⟩, ⟨"inner", some ⟨67, 74⟩⟩, ⟨"outer", none⟩]

/-- The outer function, the inner one and the function of the host are named,
outermost first, also by evaluation that marks the refusal at once. -/
theorem backtraces_name_active_calls_refused :
    let call : Task := .call 2 .empty none
    decliningHost.natives.Untraced ∧
      callingMachine.Enters call ⟨"outer", none⟩ ⟨#[⟨"outer", none⟩], 8⟩ ∧
      (evaluate decliningHost 20 call callingMachine).1 = .error refusal ∧
      (evaluateMarking decliningHost 20 call callingMachine).1 =
        .error refusal ∧
      ∃ trace inner, refusal.trace = some trace ∧
        trace.reverse = ⟨"outer", none⟩ :: inner := by
  intro call
  have huntraced : decliningHost.natives.Untraced := fun _ _ _ _ => rfl
  have hname : (callingMachine.heap.function? 2).map Function.name =
      some "outer" := by decide +kernel
  have hcalls : callingMachine.calls = ⟨#[], 8⟩ := by decide +kernel
  have hend : (evaluate decliningHost 20 call callingMachine).1 =
      .error refusal := by decide +kernel
  generalize callingMachine = machine at hname hcalls hend ⊢
  obtain ⟨function, hfunction, hfunctionName⟩ := Option.map_eq_some_iff.mp hname
  have henters : machine.Enters call ⟨"outer", none⟩
      ⟨#[⟨"outer", none⟩], 8⟩ := by
    rw [← hfunctionName]
    exact .call .empty hfunction (by rw [hcalls]; rfl)
  obtain ⟨-, hpushed, -⟩ := backtraces_name_active_calls huntraced
  obtain ⟨hmarking, htrace⟩ := hpushed 20 call machine _ _ henters
  obtain ⟨trace, inner, hsome, hreverse⟩ :=
    htrace refusal _ (Prod.ext hend rfl) rfl
  rw [hcalls] at hreverse
  rw [← hmarking]
  exact ⟨huntraced, henters, hend, hend, trace, inner, hsome, hreverse⟩

end ChainScript
