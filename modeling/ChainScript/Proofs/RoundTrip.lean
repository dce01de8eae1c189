import ChainScript.Proofs.ParserBuilds
import ChainScript.Proofs.ReadStatements

/-
Printing a script and parsing it again gives the same script.

What a parser answers with reads as one syntax tree.  The tokens of that tree
are parsed as well, and what they are parsed to reads as the same tree.  Places,
the numbers of rows, and rows that nothing refers to are not in the tree, and
may differ.
-/

namespace ChainScript

open Parse

/-- What the rules do with the text of a tree. -/
@[reducible] def Category.Reads : (category : Category) → Tree category → Prop
  | .expr, tree => tree.ReadsAlone
  | .optional, tree => tree.ReadsOptional
  | .entries, tree => tree.ReadsEntries
  | .params, tree => tree.ReadsParams
  | .stmt _, tree => tree.ReadsStmt
  | .stmts _, tree => tree.ReadsStmts
  | .other _, tree => tree.ReadsOther

/-- The text of every tree is read by the rule for its category. -/
theorem Tree.reads {category : Category} (tree : Tree category) :
    category.Reads tree := by
  induction tree with
  | null | int | float | str | ident =>
      exact readsAlone_simple (fun _ => rfl) rfl rfl fun _ => rfl
  | bool value =>
      cases value <;>
        exact readsAlone_simple (fun _ => rfl) rfl rfl fun _ => rfl
  | badge key => exact readsAlone_badge
  | member receiver key ih => exact readsAlone_member ih.readsOperand
  | index receiver key ihr ihk =>
      exact readsAlone_index ihr.readsOperand ihk.readsValue
  | array entries ih => exact readsAlone_array ih
  | args entries ih => exact readsAlone_args ih
  | binary op left right ihl ihr =>
      exact readsAlone_binary ihl.readsOperand ihr.readsOperand
  | unary op operand ih => exact readsAlone_unary ih.readsOperand
  | compose left right ihl ihr =>
      exact readsAlone_compose ihl.readsOperand ihr.readsOperand
  | call callee arguments ihc iha => exact readsAlone_call ihc.readsOperand iha
  | assign target value ih => exact readsAlone_assign ih.readsValue
  | func params body ihp ihb => exact readsAlone_func ihp ihb
  | absent => exact fun _ hpresent => nomatch hpresent
  | present value ih =>
      rintro _ ⟨⟩
      exact ih.readsValue
  | noEntries => exact readsEntries_nil
  | item value others ihv iho => exact readsEntries_item ihv.readsValue iho
  | keyed key value others ihv iho => exact readsEntries_keyed ihv.readsValue iho
  | expand name others ih => exact readsEntries_expand ih
  | noParams => exact readsParams_nil
  | rest name => exact readsParams_rest name
  | param name default others ihd iho => exact readsParams_param ihd iho
  | expr value ih => exact readsStmt_expr ih.readsValue
  | branch condition body other ihc ihb iho =>
      exact readsStmt_branch ihc.readsValue ihb iho
  | scope body ih => exact readsStmt_scope ih
  | loop key value iterated body ihi ihb =>
      exact readsStmt_loop ihi.readsValue ihb
  | attempt body head recovery ihb ihr => exact readsStmt_attempt ihb ihr
  | resource acquired binding body iha ihb =>
      exact readsStmt_resource iha.readsValue ihb
  | assignBlock name body ih => exact readsStmt_assignBlock ih
  | funcBlock name params body ihp ihb => exact readsStmt_funcBlock ihp ihb
  | inheritBlock name parent body ih => exact readsStmt_inheritBlock ih
  | «return» value ih => exact readsStmt_return ih
  | raise value ih => exact readsStmt_raise ih
  | «break» => exact readsStmt_break
  | «continue» => exact readsStmt_continue
  | done => exact readsStmts_done
  | next first others ihf iho => exact readsStmts_next ihf iho
  | noOther => exact readsOther_none
  | otherwise body ih => exact readsOther_otherwise ih

/-- The script reads as the tree. -/
def ParsedScript.Reads (parsed : ParsedScript) (tree : Tree (.stmts false)) :
    Prop :=
  parsed.program.StmtsAre parsed.script.body (tree.At parsed.program)

/-- A script reads as at most one tree. -/
theorem ParsedScript.Reads.unique {parsed : ParsedScript}
    {tree other : Tree (.stmts false)} (htree : parsed.Reads tree)
    (hother : parsed.Reads other) : tree = other :=
  Program.StmtsAre.same htree hother Tree.At.unique

/-- Tokens of the kinds that a tree has are a script that reads as the tree. -/
theorem parse_of_sameKinds (number : Nat) {tokens : List Token}
    {tree : Tree (.stmts false)} (hsame : SameKinds tokens (print tree)) :
    ∃ parsed, parse number tokens = .ok parsed ∧ parsed.Reads tree := by
  have hstart : (ParserState.start number tokens).At ⟨[], 0⟩ (print tree) :=
    ⟨hsame, rfl, rfl⟩
  have hscript : Accepts ⟨[], 0⟩ (.empty number)
      (script (grammar ((print tree).length + 1))) (print tree) [.of .eof]
      fun program script => program.StmtsAre script.body (tree.At program) := by
    apply Accepts.within
    apply (passes_place _).andThen
    intro start _
    apply passes_rounds.andThen
    rintro _ rfl
    apply (tree.reads _ ⟨[], 0⟩ _ _ _ _ rfl (Setting.allows_false _) rfl
      (.inr rfl) (Nat.le_succ_of_le (Nat.le_succ _)) (Nat.lt_succ_self _)).bind
    intro program ids _ hat
    apply (passes_place _).andThen
    intro last _
    apply (accepts_addStmtList hat).bind
    intro after range _ hrange
    exact accepts_pure fun _ hgrows =>
      Program.StmtsAre.grows hgrows hrange fun _ hat => hat.grows hgrows
  obtain ⟨script, final, hrun, _, _, hreads⟩ := hscript _ hstart (.refl _)
  refine ⟨⟨final.program, script⟩, ?_, hreads⟩
  unfold parse runParser
  rw [hsame.length_eq, hrun]
  rfl

/-- The tokens of a tree are a script that reads as the tree. -/
theorem parse_print (number : Nat) (tree : Tree (.stmts false)) :
    ∃ parsed, parse number (print tree) = .ok parsed ∧ parsed.Reads tree :=
  parse_of_sameKinds number rfl

/-- `a - b - (c - d)` keeps the parentheses that it needs. -/
example :
    let difference (left right : Tree .expr) := Tree.binary .sub left right
    print (.next (.expr (difference (difference (.ident "a") (.ident "b"))
        (difference (.ident "c") (.ident "d")))) .done) =
      [.ident "a", .mark .minus, .ident "b", .mark .minus, .mark .openParen,
        .ident "c", .mark .minus, .ident "d", .mark .closeParen,
        .eof].map Token.of :=
  rfl

/-- Different scripts have different tokens. -/
theorem print_injective {tree other : Tree (.stmts false)}
    (hprint : print tree = print other) : tree = other := by
  obtain ⟨parsed, hparse, htree⟩ := parse_print 0 tree
  obtain ⟨_, hagain, hother⟩ := parse_print 0 other
  rw [← hprint, hparse] at hagain
  cases hagain
  exact htree.unique hother

/-- What the tokens of any script are parsed to reads as one syntax tree, and
what the tokens of that tree are parsed to reads as the same one. -/
theorem print_then_parse {number : Nat} {tokens : List Token}
    {parsed : ParsedScript} (hparse : parse number tokens = .ok parsed) :
    ∃ tree, parsed.Reads tree ∧
      (∀ other, parsed.Reads other → other = tree) ∧
      ∀ number, ∃ again, parse number (print tree) = .ok again ∧
        again.Reads tree := by
  obtain ⟨tree, hreads⟩ := parse_shows hparse
  exact ⟨tree, hreads, fun other hother => hother.unique hreads,
    fun number => parse_print number tree⟩

/-- The tokens of `x = (a - (b - (c))) * -d; if not x { f(1) } elif x & y { }`. -/
def grouping : List Token :=
  [.ident "x", .mark .assign, .mark .openParen, .ident "a", .mark .minus,
    .mark .openParen, .ident "b", .mark .minus, .mark .openParen, .ident "c",
    .mark .closeParen, .mark .closeParen, .mark .closeParen, .mark .star,
    .mark .minus, .ident "d", .mark .semicolon, .keyword .ifKw, .keyword .notKw,
    .ident "x", .mark .openBrace, .ident "f", .mark .openParen, .int 1,
    .mark .closeParen, .mark .closeBrace, .keyword .elifKw, .ident "x",
    .mark .ampersand, .ident "y", .mark .openBrace, .mark .closeBrace,
    .eof].map Token.of

theorem parse_grouping : ∃ parsed, parse 1 grouping = .ok parsed := by
  have hok : (parse 1 grouping).map (fun _ => ()) = .ok () := by
    decide +kernel
  cases hparse : parse 1 grouping with
  | ok parsed => exact ⟨parsed, rfl⟩
  | _ =>
      rw [hparse] at hok
      cases hok

theorem print_then_parse_grouping :
    ∃ parsed, parse 1 grouping = .ok parsed ∧
      ∃ tree, parsed.Reads tree ∧
        (∀ other, parsed.Reads other → other = tree) ∧
        ∀ number, ∃ again, parse number (print tree) = .ok again ∧
          again.Reads tree := by
  obtain ⟨parsed, hparse⟩ := parse_grouping
  exact ⟨parsed, hparse, print_then_parse hparse⟩

end ChainScript
