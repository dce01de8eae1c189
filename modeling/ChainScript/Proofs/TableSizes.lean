import ChainScript.Proofs.ParserBuilds
import ChainScript.Proofs.ProgramOrder
import ChainScript.Proofs.ThriftyGrammar

/-
The tables that the parser leaves are well-founded.

No table gets more rows than there are tokens, so the number of a row always
fits its 32 bits, and what a row refers to are rows that were there before it.
-/

namespace ChainScript

/-- The number of a row in 32 bits.  A number that does not fit becomes the
largest one. -/
def rowNumber (rows : Nat) : Nat :=
  min rows (UInt32.size - 1)

theorem Program.Grows.rows_le {before after : Program}
    (hgrows : before.Grows after) (table : Table) :
    before.rows table ≤ after.rows table := by
  cases table with
  | exprs => simpa [Program.rows] using hgrows.exprs.length_le
  | stmts => simpa [Program.rows] using hgrows.stmts.length_le
  | stmtLists => simpa [Program.rows] using hgrows.stmtLists.length_le
  | entries => simpa [Program.rows] using hgrows.entries.length_le
  | params => simpa [Program.rows] using hgrows.params.length_le
  | names => simpa [Program.rows] using hgrows.names.length_le
  | funcs => simpa [Program.rows] using hgrows.funcs.length_le

/-- Whether parsing succeeds or not, all references and ranges in the tables
that the parser leaves are in range, following children never leads back to a
node, and no table has more rows than there are tokens.  So the number of a row
fits 32 bits at every stage of the tables. -/
theorem parser_tables_wellFounded (number : Nat) (tokens : List Token)
    (hcount : tokens.length < UInt32.size) :
    let program := (runParser number tokens).2.program
    program.Closed ∧
      (∀ node, ¬ Relation.TransGen program.Child node node) ∧
      (∀ table, program.rows table ≤ tokens.length) ∧
      ∀ earlier : Program, earlier.Grows program →
        ∀ table, rowNumber (earlier.rows table) = earlier.rows table := by
  have hbuilt := (runParser_built number tokens).1
  have hrows := runParser_rows_le number tokens
  refine ⟨hbuilt.closed, hbuilt.no_cycle, hrows, ?_⟩
  intro earlier hgrows table
  have hle := Nat.le_trans (hgrows.rows_le table) (hrows table)
  exact Nat.min_eq_left (Nat.le_sub_one_of_lt (Nat.lt_of_le_of_lt hle hcount))

/-- The tokens of `x = [1`, which are no script. -/
def unclosedArray : List Token :=
  [.ident "x", .mark .assign, .mark .openBracket, .int 1, .eof].map
    fun kind => ⟨kind, .origin⟩

theorem parser_tables_wellFounded_unclosedArray :
    let (outcome, state) := runParser 0 unclosedArray
    outcome.map (fun _ => ()) = .error
      ⟨.unclosed (.mark .openBracket) .origin .eof, .origin,
        some .arrayLiteral⟩ ∧
      state.program.rows .exprs = 2 ∧
      state.program.Closed ∧
      (∀ node, ¬ Relation.TransGen state.program.Child node node) ∧
      (∀ table, state.program.rows table ≤ unclosedArray.length) ∧
      ∀ earlier : Program, earlier.Grows state.program →
        ∀ table, rowNumber (earlier.rows table) = earlier.rows table :=
  ⟨by decide +kernel, by decide +kernel,
    parser_tables_wellFounded 0 unclosedArray (by decide)⟩

end ChainScript
