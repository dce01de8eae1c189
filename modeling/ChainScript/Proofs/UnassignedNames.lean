import ChainScript.Proofs.FrameIsolation
import ChainScript.Proofs.ProgramOrder

/-
Names that an expression does not assign.

The innermost frame of a scope is the only one that an expression can change,
and it does so by assignments that are part of it.  The bodies of functions are
not part of an expression: what they assign goes to other frames.  So a key
that none of the assignments has keeps its value there.
-/

namespace ChainScript

open Step Machine

/-- An assignment to a key is part of an expression. -/
inductive Program.Assigns (program : Program) (key : Key) : ExprId → Prop
  | here {id value : ExprId} {span : Span}
      (row : program.expr? id = some ⟨.assign key value, span⟩) :
      Assigns program key id
  | inside {id child : ExprId}
      (inner : .expr child ∈ program.children (.expr id))
      (assigns : Assigns program key child) : Assigns program key id

/-- No expression among some nodes assigns a key. -/
def Program.Unassigned (program : Program) (key : Key) (nodes : List Node) :
    Prop :=
  ∀ id, .expr id ∈ nodes → ¬ program.Assigns key id

namespace Program.Unassigned

variable {program : Program} {key : Key} {id : ExprId} {node : Node}
  {first second : List Node}

theorem head (hall : program.Unassigned key (.expr id :: first)) :
    ¬ program.Assigns key id :=
  hall id List.mem_cons_self

theorem tail (hall : program.Unassigned key (node :: first)) :
    program.Unassigned key first :=
  fun id hid => hall id (List.mem_cons_of_mem _ hid)

theorem left (hboth : program.Unassigned key (first ++ second)) :
    program.Unassigned key first :=
  fun id hid => hboth id (List.mem_append_left _ hid)

theorem right (hboth : program.Unassigned key (first ++ second)) :
    program.Unassigned key second :=
  fun id hid => hboth id (List.mem_append_right _ hid)

end Program.Unassigned

variable {World α : Type}

/-- Code of a program has changed no frame but the innermost one of its scope,
and the value of a key is still the same there. -/
def Machine.Spared (program : Program) (key : Key)
    (before after : Machine World) : Prop :=
  before.programs[before.program]? = some program →
    ∀ link outer, before.env = link :: outer →
      link.frame < before.heap.frames.size →
        Kept AnyTwo (some link.frame) before after ∧
          (after.heap.frame link.frame).get? key =
            (before.heap.frame link.frame).get? key

namespace Machine

variable {program : Program} {key : Key}

instance : Std.Refl
    (Spared program key : Machine World → Machine World → Prop) :=
  ⟨fun machine _ _ _ _ _ => ⟨.refl machine, rfl⟩⟩

instance : Trans (Spared program key : Machine World → Machine World → Prop)
    (Spared program key) (Spared program key) where
  trans := by
    intro first second third hfirst hsecond hprogram link outer hscope hlt
    obtain ⟨hkept, hsame⟩ := hfirst hprogram link outer hscope hlt
    have hrestored := hkept.restored
    obtain ⟨hkept', hsame'⟩ := hsecond
      (by rw [hrestored.programs, hrestored.program, hprogram]) link outer
      (hrestored.env.trans hscope) (Nat.lt_of_lt_of_le hlt hkept.frames.size_le)
    exact ⟨hkept.trans hkept', hsame'.trans hsame⟩

theorem Shielded.spared {before after : Machine World}
    (hshielded : Shielded AnyTwo before after) :
    Spared program key before after := by
  intro _ link outer hscope hlt
  have hkept := hshielded (hscope ▸ List.cons_ne_nil _ _)
  refine ⟨{ hkept with frames := hkept.frames.of_none }, ?_⟩
  rw [hkept.frames.frame_eq link.frame hlt nofun]

end Machine

namespace Run

variable {program : Program} {key : Key}

theorem spared_of_shielded {body : Run World α}
    (hbody : Moves (Shielded AnyTwo) body) :
    Moves (Spared program key) body :=
  hbody.mono fun _ _ hshielded => hshielded.spared

/-- Assigning another key. -/
theorem spared_bind {target : Key} (hother : key ≠ target) (value : Value) :
    Moves (Spared program key) (Run.bind target value : Run World Unit) := by
  intro machine _ link outer hscope hlt
  obtain ⟨heap, programs, number, env, calls, world⟩ := machine
  cases hscope
  refine ⟨⟨⟨rfl, rfl, rfl, rfl⟩, heap.keptBut_setInFrame _ _ _, trivial⟩, ?_⟩
  have hframe := heap.frame_setInFrame_self target value hlt
  refine (congrArg (Container.get? · key) hframe).trans ?_
  exact Container.get?_set_of_ne _ value hother

/-- Code of a program finds the rows of this program. -/
theorem spared_row {Row : Type} (row? : Program → Option Row)
    {next : Row → Run World α}
    (hnext : ∀ row, row? program = some row →
      Moves (Spared program key) (next row)) :
    Moves (Spared program key)
      (Run.program >>= fun program => Step.found (row? program) >>= next) := by
  intro machine hprogram
  have hfound : Moves (Spared program key)
      (Step.found (row? program) >>= next : Run World α) := by
    cases hrow : row? program with
    | none => exact fun machine => Std.Refl.refl machine
    | some row => exact hnext row hrow
  rw [bind_apply, program_apply hprogram]
  exact hfound machine hprogram

end Run

/-- Evaluating an expression that does not assign the key spares it. -/
structure Worker.Spares (program : Program) (key : Key)
    (worker : Worker World) : Prop where
  isolating : worker.Isolating AnyTwo
  expr : ∀ id, ¬ program.Assigns key id →
    Moves (Spared program key) (worker.expr id)

namespace Worker

variable {program : Program} {key : Key} {worker : Worker World}
  (hworker : worker.Spares program key)

include hworker

theorem spared_entry (content : Container Value) {entry : Entry}
    (hspared : program.Unassigned key entry.kind.nodes) :
    Moves (Spared program key) (worker.entry content entry) := by
  unfold Worker.entry
  cases hkind : entry.kind with
  | item value =>
      rw [hkind] at hspared
      exact (hworker.expr value hspared.head).bind fun _ =>
        (still_pure _).moves
  | keyed target value =>
      rw [hkind] at hspared
      exact (hworker.expr value hspared.head).bind fun _ =>
        (still_pure _).moves
  | expand name =>
      apply (Run.moves_located entry.span
        (Run.spared_of_shielded (Run.moves_lookup _))).bind
      intro value
      cases value with
      | array chain =>
          exact (still_read _).moves.bind fun _ => (still_pure _).moves
      | _ => exact (Run.still_faultAt _ _).moves

theorem spared_entriesFrom (content : Container Value) {entries : List Entry}
    (hspared : program.Unassigned key
      (entries.flatMap fun entry => entry.kind.nodes)) :
    Moves (Spared program key) (worker.entriesFrom content entries) := by
  induction entries generalizing content with
  | nil => exact (still_pure content).moves
  | cons first rest ih =>
      rw [List.flatMap_cons] at hspared
      exact (spared_entry hworker content hspared.left).bind fun content =>
        ih content hspared.right

theorem spared_entries {range : EntryRange}
    (hspared : program.Unassigned key (program.entryNodes range)) :
    Moves (Spared program key) (worker.entries range) := by
  refine Run.spared_row (fun program => program.entries? range) fun entries
    hrows => spared_entriesFrom hworker .empty ?_
  rw [Program.entryNodes, hrows] at hspared
  exact hspared

theorem spared_logical (op : BinaryOp) {left right : ExprId}
    (hspared : program.Unassigned key [.expr left, .expr right]) :
    Moves (Spared program key) (worker.logical op left right) := by
  apply (hworker.expr left hspared.head).bind
  intro value
  refine (Run.still_ofExcept _).moves.bind fun first => ?_
  split
  · exact (still_pure _).moves
  · exact (hworker.expr right hspared.tail.head).bind fun _ =>
      (Run.still_ofExcept _).moves.bind fun _ => (still_pure _).moves

theorem spared_binary (op : BinaryOp) {left right : ExprId}
    (hspared : program.Unassigned key [.expr left, .expr right]) :
    Moves (Spared program key) (worker.binary op left right) := by
  unfold binary
  split
  · exact spared_logical hworker _ hspared
  · exact spared_logical hworker _ hspared
  · exact (hworker.expr left hspared.head).bind fun _ =>
      (hworker.expr right hspared.tail.head).bind fun _ =>
        (still_read _).moves.bind fun _ => (Run.still_ofOutcome _).moves

theorem spared_compose {left right : ExprId}
    (hspared : program.Unassigned key [.expr left, .expr right]) :
    Moves (Spared program key) (worker.compose left right) :=
  (hworker.expr left hspared.head).bind fun first =>
    (hworker.expr right hspared.tail.head).bind fun second =>
      (Run.spared_of_shielded (Run.moves_compose first second)).bind fun _ =>
        (Run.still_ofExcept _).moves

theorem spared_callExpr {callee : ExprId} {args : EntryRange} (span : Span)
    (hspared : program.Unassigned key
      (.expr callee :: program.entryNodes args)) :
    Moves (Spared program key) (worker.callExpr callee args span) := by
  apply (hworker.expr callee hspared.head).bind
  intro function
  apply (spared_entries hworker hspared.tail).bind
  intro args
  cases function with
  | function id =>
      exact Run.spared_of_shielded
        (hworker.isolating.call id args (some span))
  | _ => exact (Run.still_fault _).moves

theorem spared_exprKind (span : Span) {kind : ExprKind}
    (htarget : ∀ value, kind ≠ .assign key value)
    (hspared : program.Unassigned key (kind.nodes program)) :
    Moves (Spared program key) (worker.exprKind span kind) := by
  cases kind with
  | null | bool | int | float | str => exact (still_pure _).moves
  | ident name => exact Run.spared_of_shielded (Run.moves_lookup _)
  | badge other => exact Run.spared_of_shielded (Run.moves_lookup other)
  | member receiver member =>
      exact (hworker.expr receiver hspared.head).bind fun value =>
        Run.spared_of_shielded (moves_memberOf value member)
  | index receiver index =>
      exact (hworker.expr receiver hspared.head).bind fun value =>
        (hworker.expr index hspared.tail.head).bind fun _ =>
          (Run.still_ofExcept _).moves.bind fun member =>
            Run.spared_of_shielded (moves_memberOf value member)
  | array range | args range =>
      exact (spared_entries hworker hspared).bind fun content =>
        Run.spared_of_shielded (Run.moves_newArray content)
  | binary op left right => exact spared_binary hworker op hspared
  | unary op operand =>
      exact (hworker.expr operand hspared.head).bind fun _ =>
        (Run.still_ofExcept _).moves
  | compose left right => exact spared_compose hworker hspared
  | call callee args => exact spared_callExpr hworker span hspared
  | assign target value =>
      have hother : key ≠ target := fun heq => htarget value (heq ▸ rfl)
      exact (hworker.expr value hspared.head).bind fun value =>
        (Run.spared_bind hother value).bind fun _ =>
          (still_pure value).moves
  | func definition =>
      exact Run.spared_row (fun program => program.func? definition)
        fun func _ => Run.spared_of_shielded
          (Run.moves_newClosure func.name definition)

theorem spared_evalExpr {id : ExprId} (hspared : ¬ program.Assigns key id) :
    Moves (Spared program key) (worker.evalExpr id) := by
  refine Run.spared_row (fun program => program.expr? id) fun expr hrow =>
    Run.moves_located expr.span (spared_exprKind hworker expr.span ?_ ?_)
  · intro value hkind
    obtain ⟨kind, span⟩ := expr
    cases hkind
    exact hspared (.here hrow)
  · intro child hchild hassigns
    have hinner : .expr child ∈ program.children (.expr id) := by
      rw [Program.children, hrow]
      exact hchild
    exact hspared (.inside hinner hassigns)

theorem spared_defaults {unbound : List (String × ExprId)}
    (hspared : ∀ entry ∈ unbound,
      key ≠ .badge entry.1 ∧ ¬ program.Assigns key entry.2) :
    Moves (Spared program key) (worker.defaults unbound) := by
  induction unbound with
  | nil => exact (still_pure ()).moves
  | cons first rest ih =>
      obtain ⟨hother, hfirst⟩ := hspared first List.mem_cons_self
      exact (hworker.expr first.2 hfirst).bind fun value =>
        (Run.spared_bind hother value).bind fun _ =>
          ih fun entry hentry => hspared entry (List.mem_cons_of_mem _ hentry)

end Worker

/-- Whatever the depth, evaluating an expression that does not assign a key
leaves the value of the key in the innermost frame alone. -/
theorem evaluate_spares (natives : Natives World) (program : Program)
    (key : Key) (depth : Nat) :
    (evaluate natives depth).Spares program key where
  isolating := evaluate_isolating natives.along_anyTwo depth
  expr := by
    induction depth with
    | zero => exact fun _ _ => (still_halt _).moves
    | succ depth ih =>
        have hworker : (evaluate natives depth).Spares program key :=
          ⟨evaluate_isolating natives.along_anyTwo depth, ih⟩
        exact fun _ hspared => Worker.spared_evalExpr hworker hspared

end ChainScript
