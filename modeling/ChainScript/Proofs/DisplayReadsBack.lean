import ChainScript.Proofs.CallDepth
import ChainScript.Proofs.Nesting
import ChainScript.Proofs.RebuiltArrays
import ChainScript.Proofs.RoundTrip
import ChainScript.ScriptText

/-
Displayed arrays read back.

The text of an array of null, truth values, whole numbers, strings and arrays is
a script.  Running it gives an array with the same keys in the same order and
equal values, wherever and however often the script is run.
-/

namespace ChainScript

open Step

variable {World : Type} {heap : Heap} {value : Value}

/-- At the top an array is written like an array inside another one. -/
theorem Heap.WritesAs.top {chain : Chain} {text : String}
    (hwrites : heap.WritesAs true (.array chain) text) :
    heap.WritesAs false (.array chain) text := by
  obtain ⟨enough, hwrites⟩ := hwrites
  refine ⟨enough, fun depth hdepth => ?_⟩
  rw [← hwrites depth hdepth]
  cases depth <;> rfl

/-- What can be written at some depth is written in the same way at the next
one. -/
theorem entryTexts?_mono {write? write?' : Value → Option String}
    (hwrite : ∀ value text, write? value = some text →
      write?' value = some text)
    {entries : List (Key × Value)} {expected : Nat} {texts : List String}
    (htexts : entryTexts? write? expected entries = some texts) :
    entryTexts? write?' expected entries = some texts := by
  induction entries generalizing expected texts with
  | nil => exact htexts
  | cons entry rest ih =>
      obtain ⟨key, value⟩ := entry
      simp only [entryTexts?, Option.bind_eq_bind, Option.bind_eq_some_iff]
        at htexts ⊢
      obtain ⟨text, htext, others, hothers, heq⟩ := htexts
      exact ⟨text, hwrite value text htext, others, ih hothers, heq⟩

theorem Heap.textTo?_mono {depth more : Nat} (hmore : depth ≤ more)
    {nested : Bool} {text : String}
    (htext : heap.textTo? depth nested value = some text) :
    heap.textTo? more nested value = some text := by
  induction depth generalizing more nested value text with
  | zero => cases value <;> simp_all [Heap.textTo?]
  | succ depth ih =>
      obtain ⟨more, rfl⟩ : ∃ less, more = less + 1 := ⟨more - 1, by omega⟩
      cases value with
      | array chain =>
          simp only [Heap.textTo?, Option.bind_eq_bind,
            Option.bind_eq_some_iff] at htext ⊢
          obtain ⟨texts, htexts, heq⟩ := htext
          exact ⟨texts, entryTexts?_mono (fun _ _ => ih
            (Nat.le_of_succ_le_succ hmore)) htexts, heq⟩
      | _ => simpa [Heap.textTo?] using htext

/-- Display writes no other text. -/
theorem Heap.WritesAs.unique {nested : Bool} {text written : String}
    (hwrites : heap.WritesAs nested value text) {depth : Nat}
    (hwritten : heap.textTo? depth nested value = some written) :
    written = text := by
  obtain ⟨enough, hwrites⟩ := hwrites
  have hsame := Heap.textTo?_mono (Nat.le_max_left depth enough) hwritten
  rw [hwrites _ (Nat.le_max_right _ _)] at hsame
  exact (Option.some.inj hsame).symm

theorem Makes.catchReturn {run : Run World Value} {machine : Machine World}
    {property : Heap → Value → Prop} (hrun : Makes run machine property) :
    Makes (Run.catchReturn run) machine property := by
  obtain ⟨result, after, hresult, hkept⟩ := hrun
  refine ⟨result, after, ?_, hkept⟩
  rw [Run.catchReturn, hresult]

/-- The script that is one literal has the value of the literal. -/
theorem ParsedScript.Reads.makes {parsed : ParsedScript} {tree : Tree .expr}
    (hreads : parsed.Reads (.next (.expr tree) .done))
    (hbuilt : parsed.program.Built) (hshows : tree.Shows heap value)
    (natives : Natives World) {machine : Machine World}
    (hruns : machine.programs[machine.program]? = some parsed.program) :
    Makes (runScript natives parsed.script) machine fun later copy =>
      heap.Copies later value copy := by
  obtain ⟨_, hids, id, _, rfl, ⟨stmt, hstmt, part, hkind, hpart⟩, rfl⟩ := hreads
  have hroom : parsed.program.exprs.size + 2 ≤ machine.depthBound := by
    have hsize := size_le_totalSize hruns
    have htwice : 2 * (totalSize machine.programs + 2) ≤ machine.depthBound :=
      Nat.mul_le_mul_right _ (Nat.le_add_left 2 _)
    unfold Program.size at hsize
    omega
  obtain ⟨depth, hdepth⟩ : ∃ depth, machine.depthBound = depth + 1 :=
    ⟨machine.depthBound - 1, by omega⟩
  have hhas : parsed.program.HasExpr part := hpart.imp fun _ => And.left
  have hvalue : Makes ((evaluate natives depth).expr part) machine
      fun later copy => heap.Copies later value copy :=
    makes_expr hbuilt hpart hhas (by omega) hruns
      fun _ => hshows.rebuilt hbuilt
  have hstmt : Makes (evaluate natives (depth + 1) (.stmt id)) machine
      fun later copy => heap.Copies later value copy := by
    refine makes_program hruns (makes_found hstmt ?_)
    rw [hkind]
    exact hvalue.located stmt.span
  have hstmts : Makes ((evaluate natives (depth + 1)).stmts
      parsed.script.body) machine
        fun later copy => heap.Copies later value copy :=
    makes_program hruns (makes_found hids
      (hstmt.bind fun _ _ _ hcopies => makes_pure hcopies))
  rw [← hdepth] at hstmts
  exact makes_read hstmts.catchReturn

/-- Cutting the text of a plain array into tokens, parsing these and running the
script gives an array with the same keys in the same order, and equal values,
whatever the host and whatever was run before.  Display writes this text and no
other one, and it always answers when no array contains itself. -/
theorem displayed_arrays_read_back {chain : Chain}
    (hplain : heap.Plain (.array chain)) :
    ∃ text,
      (∃ enough, ∀ depth, enough ≤ depth →
        heap.textTo? depth false (.array chain) = some text) ∧
      (∀ written, heap.text? (.array chain) = some written →
        written = text) ∧
      (∀ sealed programs, Store.Sound { heap, sealed } programs →
        Store.Holds { heap, sealed } (.array chain) →
        heap.text? (.array chain) = some text) ∧
      ∀ {World : Type} (natives : Natives World) (machine : Machine World)
        (globals : Container Value) (limit : Nat),
        ∃ parsed copy after,
          parseText machine.programs.size text = .ok parsed ∧
          runScript natives parsed.script
              (machine.next parsed.program globals limit) =
            (.ok (.array copy), after) ∧
          heap.Copies after.heap (.array chain) (.array copy) := by
  obtain ⟨tree, hshows⟩ := hplain.exists_shows
  obtain ⟨text, hnested, hspells⟩ := hshows.spelled
  have hwrites := Heap.WritesAs.top hnested
  have hunique : ∀ written, heap.text? (.array chain) = some written →
      written = text :=
    fun _ hwritten => hwrites.unique hwritten
  refine ⟨text, hwrites, hunique, ?_, ?_⟩
  · intro sealed programs hsound hholds
    obtain ⟨written, hwritten⟩ :=
      Option.isSome_iff_exists.mp (hsound.text?_isSome hholds)
    rw [hwritten, hunique written hwritten]
  · intro World natives machine globals limit
    have hlexes : LexesTo (text.toList ++ [])
        (print (.next (.expr tree) .done)) :=
      hspells [] [.of .eof] closes_nil lexesTo_nil
    rw [List.append_nil] at hlexes
    obtain ⟨tokens, hlex, hsame⟩ := hlexes.lex
    obtain ⟨parsed, hparse, hreads⟩ :=
      parse_of_sameKinds machine.programs.size hsame
    have htext : parseText machine.programs.size text = .ok parsed := by
      simp only [parseText, hlex, hparse]
    have hruns : (machine.next parsed.program globals limit).programs[
        (machine.next parsed.program globals limit).program]? =
          some parsed.program := by
      simp [Machine.next, Machine.start]
    obtain ⟨copy, after, hrun, _, hcopies⟩ :=
      hreads.makes (parse_built hparse).1 hshows natives hruns
    have hcopy := hcopies after (.refl after)
    cases hcopy with
    | array hkeys hvalues =>
        exact ⟨parsed, _, _, htext, hrun, .array hkeys hvalues⟩

/-- Two frames on top of each other, with another array inside.  The keys are
out of order, and one of them is in both frames. -/
def stacked : Heap where
  frames := #[.ofPairs [(.index 3, .int (-7)), (.badge "two words", .null)],
    .ofPairs [(.index 4, .bool true), (.badge "b", .str "\"\n")],
    .ofPairs [(.index 4, .array [⟨0, 1⟩]), (.index 0, .int 2),
      (.badge "two words", .str "")]]
  nextLink := 3

theorem plain_stacked : stacked.Plain (.array [⟨2, 2⟩, ⟨1, 0⟩]) := by
  have hinner : stacked.Plain (.array [⟨0, 1⟩]) := by
    have hentries : (stacked.flatten [⟨0, 1⟩]).entries =
        [(.index 4, .bool true), (.badge "b", .str "\"\n")] := by
      decide +kernel
    refine .array (by decide +kernel) ?_
    rw [hentries]
    simp only [List.forall_mem_cons]
    exact ⟨.bool true, .str _, nofun⟩
  have hentries : (stacked.flatten [⟨2, 2⟩, ⟨1, 0⟩]).entries =
      [(.index 3, .int (-7)), (.badge "two words", .str ""),
        (.index 4, .array [⟨0, 1⟩]), (.index 0, .int 2)] := by
    decide +kernel
  refine .array (by decide +kernel) ?_
  rw [hentries]
  simp only [List.forall_mem_cons]
  exact ⟨.int (by decide), .str _, hinner, .int (by decide), nofun⟩

/-- A machine that has run nothing yet. -/
def idleMachine : Machine Unit :=
  ⟨.empty, #[], 0, [], .empty 1, ()⟩

theorem text?_stacked :
    stacked.text? (.array [⟨2, 2⟩, ⟨1, 0⟩]) = some
      "[3: -7, \"two words\": \"\", [4: true, b: \"\\\"\\n\"], 0: 2]" := by
  decide +kernel

theorem displayed_arrays_read_back_stacked :
    ∃ text, stacked.text? (.array [⟨2, 2⟩, ⟨1, 0⟩]) = some text ∧
      ∃ parsed copy after,
        parseText idleMachine.programs.size text = .ok parsed ∧
        runScript Host.silent parsed.script
            (idleMachine.next parsed.program .empty 1) =
          (.ok (.array copy), after) ∧
        stacked.Copies after.heap (.array [⟨2, 2⟩, ⟨1, 0⟩]) (.array copy) := by
  obtain ⟨text, _, hunique, _, hreads⟩ :=
    displayed_arrays_read_back plain_stacked
  have htext := text?_stacked
  rw [hunique _ htext] at htext
  have hcopied := hreads Host.silent.natives idleMachine .empty 1
  exact ⟨text, htext, hcopied⟩

end ChainScript
