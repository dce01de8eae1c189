import Mathlib.Data.List.Forall2
import ChainScript.Interpreter
import ChainScript.Proofs.ContainerLaws
import ChainScript.Proofs.DisplayedTrees
import ChainScript.Proofs.Frames
import ChainScript.Proofs.Merging

/-
What a literal evaluates to.

A literal that shows a value evaluates to a copy of the value.  Evaluating it
adds frames to the heap and changes nothing else, so what has been built stays
as it is while the rest is built.  The container that an array is built in hands
out the positions that were left out of the text.
-/

namespace ChainScript

open Step

/-- Null, truth values, whole numbers and strings are copied as they are.  The
copy of an array has the same keys in the same order, and copies of the
values. -/
inductive Heap.Copies (heap other : Heap) : Value → Value → Prop where
  | null : heap.Copies other .null .null
  | bool (value : Bool) : heap.Copies other (.bool value) (.bool value)
  | int (value : Int64) : heap.Copies other (.int value) (.int value)
  | str (text : String) : heap.Copies other (.str text) (.str text)
  | array {chain copy : Chain}
      (hkeys : (other.flatten copy).keys = (heap.flatten chain).keys)
      (hvalues : ∀ key value again,
        (heap.flatten chain).get? key = some value →
        (other.flatten copy).get? key = some again →
        heap.Copies other value again) :
      heap.Copies other (.array chain) (.array copy)

/-- The same keys in the same order, and copies of the values. -/
def Heap.CopiesEntries (heap other : Heap)
    (entries copies : List (Key × Value)) : Prop :=
  List.Forall₂ (fun entry copy =>
    copy.1 = entry.1 ∧ heap.Copies other entry.2 copy.2) entries copies

namespace Heap.CopiesEntries

variable {heap other : Heap} {entries copies : List (Key × Value)}

theorem keys_eq (hcopies : heap.CopiesEntries other entries copies) :
    copies.map Prod.fst = entries.map Prod.fst := by
  induction hcopies with
  | nil => rfl
  | cons hfirst _ ih => rw [List.map_cons, List.map_cons, hfirst.1, ih]

theorem valueAt? (hcopies : heap.CopiesEntries other entries copies)
    {key : Key} {value again : Value}
    (hvalue : ChainScript.valueAt? key entries = some value)
    (hagain : ChainScript.valueAt? key copies = some again) :
    heap.Copies other value again := by
  induction hcopies with
  | nil => cases hvalue
  | @cons entry copy _ _ hfirst _ ih =>
      rw [ChainScript.valueAt?] at hvalue hagain
      by_cases heq : entry.1 = key
      · rw [if_pos heq] at hvalue
        rw [if_pos (hfirst.1.trans heq)] at hagain
        cases hvalue
        cases hagain
        exact hfirst.2
      · rw [if_neg heq] at hvalue
        rw [if_neg (hfirst.1 ▸ heq)] at hagain
        exact ih hvalue hagain

end Heap.CopiesEntries

variable {World α β : Type}

/-- The computation answers, and does nothing else than to add frames to the
heap.  The answer has a property as long as all of these frames stay. -/
def Makes (run : Run World α) (machine : Machine World)
    (property : Heap → α → Prop) : Prop :=
  ∃ result after, run machine = (.ok result, { machine with heap := after }) ∧
    machine.heap.KeptBut none after ∧
    ∀ later, after.KeptBut none later → property later result

section Building

variable {run : Run World α} {machine : Machine World}
  {property : Heap → α → Prop} {program : Program}

theorem makes_pure {value : α}
    (hvalue : ∀ later, machine.heap.KeptBut none later → property later value) :
    Makes (pure value) machine property :=
  ⟨value, machine.heap, rfl, .refl _, hvalue⟩

theorem Makes.bind {next : α → Run World β} {more : Heap → β → Prop}
    (hrun : Makes run machine property)
    (hnext : ∀ result after, machine.heap.KeptBut none after →
      (∀ later, after.KeptBut none later → property later result) →
      Makes (next result) { machine with heap := after } more) :
    Makes (run >>= next) machine more := by
  obtain ⟨result, after, hresult, hkept, hproperty⟩ := hrun
  obtain ⟨final, last, hfinal, hlast, hmore⟩ :=
    hnext result after hkept hproperty
  refine ⟨final, last, ?_, hkept.trans hlast, hmore⟩
  rw [bind_apply, hresult]
  exact hfinal

theorem makes_read {read : Machine World → α} {next : α → Run World β}
    {more : Heap → β → Prop}
    (hnext : Makes (next (read machine)) machine more) :
    Makes (Step.read read >>= next) machine more :=
  hnext

theorem makes_found {row : α} {next : α → Run World β} {found : Option α}
    {more : Heap → β → Prop} (hfound : found = some row)
    (hnext : Makes (next row) machine more) :
    Makes (Step.found found >>= next) machine more := by
  subst hfound
  exact hnext

theorem makes_program {next : Program → Run World β} {more : Heap → β → Prop}
    (hruns : machine.programs[machine.program]? = some program)
    (hnext : Makes (next program) machine more) :
    Makes (Run.program >>= next) machine more := by
  rw [Run.program, Step.bind_assoc]
  exact makes_read (makes_found hruns hnext)

theorem Makes.located (hrun : Makes run machine property) (span : Span) :
    Makes (Run.located span run) machine property := by
  obtain ⟨result, after, hresult, hkept⟩ := hrun
  refine ⟨result, after, ?_, hkept⟩
  rw [Run.located, mapError, hresult]

/-- An array holds what it was built with as long as its frame stays. -/
theorem makes_newArray {heap : Heap} {chain : Chain}
    {content : Container Value} (hdistinct : content.Distinct)
    (hcontent : ∀ later, machine.heap.KeptBut none later →
      heap.CopiesEntries later (heap.flatten chain).entries content.entries) :
    Makes (Run.newArray content) machine fun later copy =>
      heap.Copies later (.array chain) copy := by
  have hadded := machine.heap.keptBut_addArray content
  refine ⟨_, _, rfl, hadded, fun later hlater => ?_⟩
  have hframe : later.frame machine.heap.frames.size = content := by
    rw [hlater.frame_eq _ (by simp [Heap.addArray, Heap.pushNew, Heap.push,
      Heap.addFrame]) (by simp)]
    exact machine.heap.frame_addFrame_self content
  have hcopies := hcontent later (hadded.trans hlater)
  have hflatten : (later.flatten
      [⟨machine.heap.nextLink, machine.heap.frames.size⟩]).entries =
      content.entries := by
    change (Container.empty.setAll (later.frame _).entries).entries = _
    rw [hframe]
    exact Container.entries_setAll hdistinct
  refine .array ?_ fun key value again hvalue hagain => ?_
  · unfold Container.keys
    rw [← hcopies.keys_eq]
    exact congrArg (List.map Prod.fst) hflatten
  · unfold Container.get? at hvalue hagain
    exact hcopies.valueAt? hvalue (hflatten ▸ hagain)

end Building

/-- A positive number has a negation in range. -/
theorem unary_neg_of_pos {number : Int64} (hsign : 0 < number.toInt) :
    unary .neg (.int number) = .ok (.int (-number)) := by
  have hhigh := number.toInt_lt
  have hrange : inIntRange (-number.toInt) = true := by
    unfold inIntRange maxInteger
    rw [Bool.and_eq_true]
    exact ⟨decide_eq_true (by omega), decide_eq_true (by omega)⟩
  have hneg : Int64.ofInt (-number.toInt) = -number := by
    rw [Int64.ofInt_neg, Int64.ofInt_toInt]
  exact (exactInt_of_inRange hrange).trans (by rw [hneg])

/-- What a node makes that reads as the literal of a value, or of entries. -/
@[reducible] def Category.Rebuilt (heap : Heap) (natives : Natives World)
    (program : Program) :
    (category : Category) → category.Node → category.Shown → Prop
  | .expr, kind, value =>
      ∀ older depth span (machine : Machine World), older.Grows program →
        kind.RefersInto older → older.exprs.size ≤ depth →
        machine.programs[machine.program]? = some program →
        Makes ((evaluate natives depth).exprKind span kind) machine
          fun later copy => heap.Copies later value copy
  | .entries, rows, shown =>
      ∀ older depth content (machine : Machine World), older.Grows program →
        (∀ row ∈ rows, row.kind.RefersInto older) →
        older.exprs.size ≤ depth →
        machine.programs[machine.program]? = some program →
        taken content.next = shown.1 →
        (content.keys ++ shown.2.map Prod.fst).Nodup →
        Makes ((evaluate natives depth).entriesFrom content rows) machine
          fun later built => ∃ copies,
            built.entries = content.entries ++ copies ∧
              heap.CopiesEntries later shown.2 copies
  | _, _, _ => True

section Rebuilding

variable {heap : Heap} {natives : Natives World} {program older : Program}
  {depth : Nat} {machine : Machine World}

/-- The parts of an expression are evaluated one level deeper, and stand before
the expression in its table. -/
theorem makes_expr {tree : Tree .expr} {id : ExprId} {value : Value}
    (hbuilt : program.Built) (hid : program.ExprIs id (tree.At program))
    (hold : older.HasExpr id) (hdepth : older.exprs.size ≤ depth)
    (hruns : machine.programs[machine.program]? = some program)
    (hkinds : ∀ kind, tree.At program kind →
      Category.Rebuilt heap natives program .expr kind value) :
    Makes ((evaluate natives depth).expr id) machine fun later copy =>
      heap.Copies later value copy := by
  obtain ⟨expr, hexpr, hat⟩ := hid
  obtain ⟨before, hbefore, hgrows, hsize, hrefers⟩ := hbuilt.expr_addedAt hexpr
  have hlt := hold.index_lt
  obtain ⟨less, rfl⟩ : ∃ less, depth = less + 1 := ⟨depth - 1, by omega⟩
  refine makes_program hruns (makes_found hexpr (Makes.located ?_ expr.span))
  exact hkinds expr.kind hat before less expr.span machine hgrows hrefers
    (by omega) hruns

/-- Display counts positions as containers do. -/
theorem taken_next_eq_expectedAfter {content : Container Value} {key : Key}
    {expected : Nat} {value : Value} (htaken : taken content.next = expected) :
    taken (content.set key value).next = expectedAfter expected key := by
  rw [Container.taken_next_set, htaken]
  cases key with
  | badge name => exact Nat.zero_max expected
  | index position => exact Nat.max_comm _ _

/-- An entry is set after the ones before it, and the others follow. -/
theorem makes_entries {key : Key} {value : Value} {rest : List (Key × Value)}
    {row : Entry} {rows : List Entry} {id : ExprId}
    {content : Container Value} {expected : Nat}
    (hrow : (evaluate natives depth).entry content row = do
      return content.set key (← (evaluate natives depth).expr id))
    (hvalue : Makes ((evaluate natives depth).expr id) machine
      fun later copy => heap.Copies later value copy)
    (hnodup : (content.keys ++ key :: rest.map Prod.fst).Nodup)
    (htaken : taken content.next = expected)
    (hrest : ∀ content after,
      taken content.next = expectedAfter expected key →
      (content.keys ++ rest.map Prod.fst).Nodup →
      Makes ((evaluate natives depth).entriesFrom content rows)
        { machine with heap := after } fun later built => ∃ copies,
          built.entries = content.entries ++ copies ∧
            heap.CopiesEntries later rest copies) :
    Makes ((evaluate natives depth).entriesFrom content (row :: rows)) machine
      fun later built => ∃ copies,
        built.entries = content.entries ++ copies ∧
          heap.CopiesEntries later ((key, value) :: rest) copies := by
  have hnew : key ∉ content.keys := fun hold =>
    (List.nodup_append.mp hnodup).2.2 key hold key List.mem_cons_self rfl
  rw [Worker.entriesFrom, hrow, Step.bind_assoc]
  refine hvalue.bind fun copy after _ hcopy => ?_
  have hkeys : (content.set key copy).keys = content.keys ++ [key] := by
    rw [Container.keys_set, if_neg hnew]
  have hentries : (content.set key copy).entries =
      content.entries ++ [(key, copy)] :=
    setEntry_of_not_mem copy hnew
  obtain ⟨built, last, hrun, hlast, hbuilt⟩ := hrest (content.set key copy)
    after (taken_next_eq_expectedAfter htaken) (by simpa [hkeys] using hnodup)
  refine ⟨built, last, hrun, hlast, fun later hlater => ?_⟩
  obtain ⟨copies, hall, hcopies⟩ := hbuilt later hlater
  refine ⟨(key, copy) :: copies, ?_, .cons ⟨rfl, ?_⟩ hcopies⟩
  · rw [hall, hentries, List.append_assoc]
    rfl
  · exact hcopy later (hlast.trans hlater)

end Rebuilding

/-- A node that reads as the literal of a value makes a copy of the value. -/
theorem Tree.Shows.rebuilt {heap : Heap} {natives : Natives World}
    {program : Program} (hbuilt : program.Built) {category : Category}
    {tree : Tree category} {node : category.Node} {shown : category.Shown}
    (hshows : tree.Shows heap shown) (hat : tree.At program node) :
    category.Rebuilt heap natives program node shown := by
  induction tree with
  | null =>
      cases hshows
      cases hat
      exact fun _ _ _ _ _ _ _ _ => makes_pure fun _ _ => .null
  | bool truth =>
      cases hshows
      cases hat
      exact fun _ _ _ _ _ _ _ _ => makes_pure fun _ _ => .bool truth
  | int number =>
      obtain ⟨-, rfl⟩ := hshows
      cases hat
      exact fun _ _ _ _ _ _ _ _ => makes_pure fun _ _ => .int number
  | str text =>
      cases hshows
      cases hat
      exact fun _ _ _ _ _ _ _ _ => makes_pure fun _ _ => .str text
  | unary op operand ih =>
      obtain ⟨number, rfl, rfl, hsign, rfl⟩ := hshows
      obtain ⟨id, rfl, hid⟩ := hat
      intro older depth span machine hgrows hrefers hdepth hruns
      have hoperand := makes_expr hbuilt hid hrefers hdepth hruns
        fun kind hkind => ih ⟨Int.le_of_lt hsign, rfl⟩ hkind
      refine hoperand.bind fun result after _ hresult => ?_
      cases hresult after (.refl after)
      rw [unary_neg_of_pos hsign]
      exact makes_pure fun _ _ => .int (-number)
  | array entries ih =>
      obtain ⟨chain, rfl, hentries⟩ := hshows
      obtain ⟨range, rfl, rows, hrows, hat⟩ := hat
      intro older depth span machine hgrows hrefers hdepth hruns
      obtain ⟨rows', hrows', hrefers⟩ := hrefers
      have hsame := (hgrows.entries? hrows').symm.trans hrows
      cases hsame
      have hdistinct := heap.distinct_mergeFrames chain.frames
      have hinside := ih hentries hat older depth .empty machine hgrows hrefers
        hdepth hruns rfl hdistinct
      refine Makes.bind (makes_program hruns (makes_found hrows hinside))
        fun content after _ hcontent => makes_newArray ?_ ?_
      · obtain ⟨copies, hall, hcopies⟩ := hcontent after (.refl after)
        rw [Container.Distinct, Container.keys, hall]
        exact hcopies.keys_eq ▸ hdistinct
      · intro later hlater
        obtain ⟨copies, hall, hcopies⟩ := hcontent later hlater
        exact hall ▸ hcopies
  | noEntries =>
      obtain ⟨expected, entries⟩ := shown
      cases hshows
      cases hat
      exact fun _ _ content _ _ _ _ _ _ _ => makes_pure fun _ _ =>
        ⟨[], (List.append_nil _).symm, .nil⟩
  | item first others ihf iho =>
      obtain ⟨expected, entries⟩ := shown
      obtain ⟨position, value, rest, rfl, rfl, hfirst, hothers⟩ := hshows
      obtain ⟨id, span, rows, rfl, hid, hrows⟩ := hat
      intro older depth content machine hgrows hrefers hdepth hruns htaken
        hnodup
      obtain ⟨hhas, hrefers⟩ := List.forall_mem_cons.mp hrefers
      have hvalue := makes_expr hbuilt hid hhas hdepth hruns
        fun _ => ihf hfirst
      -- The next position is the one that was left out.
      have hnext : content.next = some position := taken_injective htaken
      refine makes_entries ?_ hvalue hnodup htaken fun content after => ?_
      · simp only [Worker.entry, Container.append_of_next hnext]
      · exact iho hothers hrows older depth content _ hgrows hrefers hdepth
          hruns
  | keyed key first others ihf iho =>
      obtain ⟨expected, entries⟩ := shown
      obtain ⟨value, rest, rfl, -, -, hfirst, hothers⟩ := hshows
      obtain ⟨id, span, rows, rfl, hid, hrows⟩ := hat
      intro older depth content machine hgrows hrefers hdepth hruns htaken
        hnodup
      obtain ⟨hhas, hrefers⟩ := List.forall_mem_cons.mp hrefers
      have hvalue := makes_expr hbuilt hid hhas hdepth hruns
        fun _ => ihf hfirst
      exact makes_entries rfl hvalue hnodup htaken fun content after =>
        iho hothers hrows older depth content _ hgrows hrefers hdepth hruns
  | _ => exact hshows.elim

end ChainScript
