import ChainScript.Proofs.PlacedStatements
import ChainScript.Proofs.Tiling

/-
The places of a parsed text nest like its parts.

The rows that the parser adds are laid out on the tokens that it reads, and the
tokens of a text stand in order.  So each part goes from the start of a token
to the end of one, its parts lie within it, and of two of them one ends before
the other begins.
-/

namespace ChainScript

def Part.isScript : Part → Bool
  | .script _ => true
  | _ => false

/-- The inner part is one of those that the outer one consists of. -/
def Part.Has (program : Program) (outer inner : Part) : Prop :=
  ∃ parts, outer.parts? program = some parts ∧ inner ∈ parts

/-- The part goes from a token to a token, and what it consists of is in it, in
order and without overlap. -/
structure Part.Nests (tokens : List Token) (program : Program) (part : Part) :
    Prop where
  /-- Only the whole script may begin or end at a line feed. -/
  ends : ∃ (i j : Nat) (first last : Token), i ≤ j ∧
    tokens[i]? = some first ∧ tokens[j]? = some last ∧
    part.span = ⟨first.span.start, last.span.stop⟩ ∧
    (part.isScript = false → first.isNewline = false ∧ last.isNewline = false)
  parts : ∃ parts, part.parts? program = some parts ∧
    (∀ inner ∈ parts, inner.span.Within part.span) ∧
    parts.Pairwise fun left right => left.span.stop ≤ right.span.start

theorem OrderedTokens.of_lex {source : String} {tokens : List Token}
    (hlex : lex source = .ok tokens) : OrderedTokens tokens :=
  have hmunch := (tiles_of_lexAt hlex).maximalMunch
  ⟨fun token htoken => (hmunch.inText token htoken).ordered, hmunch.ordered⟩

theorem tokens_ne_nil {source : String} {tokens : List Token}
    (hlex : lex source = .ok tokens) : tokens ≠ [] := by
  obtain ⟨front, htokens, -⟩ := (tiles_of_lexAt hlex).maximalMunch.ended
  simp [htokens]

/-- A part nests if what it consists of is laid out from its first token to its
last one. -/
theorem LaidOut.nests {tokens : List Token} {program : Program} {i j : Nat}
    {part : Part} {inner : List Part} {first last : Token}
    (hordered : OrderedTokens tokens) (hle : i ≤ j)
    (hfirst : tokens[i]? = some first) (hlast : tokens[j]? = some last)
    (hspan : part.span = ⟨first.span.start, last.span.stop⟩)
    (hvisible : part.isScript = false →
      first.isNewline = false ∧ last.isNewline = false)
    (hparts : part.parts? program = some inner)
    (hinner : LaidOut tokens program i (j + 1) inner) :
    part.Nests tokens program := by
  refine ⟨⟨i, j, first, last, hle, hfirst, hlast, hspan, hvisible⟩, inner,
    hparts, fun other hother => ?_, hinner.ordered hordered⟩
  obtain ⟨k, l, _, hk, hl, hfrom, _⟩ := hinner.of_mem hother
  obtain ⟨start, hstart, -, hbegins⟩ := hfrom.first
  obtain ⟨stop, hstop, -, hends⟩ := hfrom.last
  rw [hspan, Span.Within, hbegins, hends]
  exact ⟨hordered.starts_le hfirst hstart hk,
    hordered.stops_le hstop hlast (Nat.le_of_lt_succ hl)⟩

/-- A place in tokens shows one of them, which is not before those passed. -/
theorem Cursor.exists_span {cursor : Cursor} (hsome : cursor.tokens ≠ []) :
    ∃ (j : Nat) (token : Token), cursor.tokens[j]? = some token ∧
      cursor.span = token.span ∧ cursor.pos ≤ j + 1 := by
  obtain ⟨passed, rest, modes⟩ := cursor
  cases rest with
  | cons token rest =>
      exact ⟨passed.length, token, by simp [tokens], rfl, Nat.le_succ _⟩
  | nil =>
      cases passed with
      | nil => exact absurd rfl hsome
      | cons token earlier =>
          exact ⟨earlier.length, token, by simp [tokens], rfl, Nat.le_refl _⟩

/-- The statements of a script stand between its first token and the one that
it ends with. -/
theorem readsAt_script {tokens : List Token} {number : Nat}
    (hordered : OrderedTokens tokens) (hsome : tokens ≠ []) (depth : Nat) :
    Parse.ReadsAt tokens (Parse.script (grammar depth)) (.start number tokens)
      fun whole after =>
        ∃ (j : Nat) (first last : Token), tokens[0]? = some first ∧
          tokens[j]? = some last ∧
          whole.span = ⟨first.span.start, last.span.stop⟩ ∧
          Placed tokens after.program 0 (j + 1) [.stmts whole.body] := by
  obtain ⟨first, rest, rfl⟩ := List.exists_cons_of_ne_nil hsome
  refine Parse.ReadsAt.within ?_ _
  refine Parse.readsAt_look (Parse.readsAt_look ?_)
  refine (Parse.places_statementsFrom (grammar_reads hordered depth) hordered
    (grammar_thrifty .exprs depth) _ _ _).bind
      fun stmts middle hreads hstmts => ?_
  refine Parse.readsAt_look ?_
  have hrest : middle.cursor.tokens ≠ [] := hreads.tokens_eq ▸ hsome
  obtain ⟨j, last, hlast, hspan, hpos⟩ := Cursor.exists_span hrest
  rw [hreads.tokens_eq] at hlast
  refine (Parse.readsAt_add (Program.grows_addStmtList _ _)).bind ?_
  rintro _ after _ ⟨rfl, rfl⟩
  refine Parse.readsAt_pure ⟨j, first, last, rfl, hlast, ?_,
    .addStmtList (hstmts.mono (Nat.zero_le _) hpos)⟩
  have hstart := hordered.starts_le rfl hlast (Nat.zero_le j)
  have hstop := hordered.stops_le rfl hlast (Nat.zero_le j)
  change Span.merge first.span middle.cursor.span = _
  rw [hspan, Span.merge, Nat.min_eq_left hstart, Nat.max_eq_right hstop]

theorem parse_laidOut {tokens : List Token} {number : Nat}
    {parsed : ParsedScript} (hordered : OrderedTokens tokens)
    (hsome : tokens ≠ []) (hparse : parse number tokens = .ok parsed) :
    ∃ (j : Nat) (first last : Token), tokens[0]? = some first ∧
      tokens[j]? = some last ∧
      parsed.script.span = ⟨first.span.start, last.span.stop⟩ ∧
      Placed tokens parsed.program 0 (j + 1) [.stmts parsed.script.body] := by
  unfold parse at hparse
  cases hrun : runParser number tokens with
  | mk outcome after =>
      rw [hrun] at hparse
      cases outcome with
      | ok whole =>
          cases hparse
          exact (readsAt_script hordered hsome _ rfl whole after hrun).2
      | error error => cases hparse
      | halted reason => cases hparse

/-- The place of every part of a parsed text goes from the start of a token to
the end of one.  The places of its own parts are in it, in the order of the
text, and none of them reaches into the next. -/
theorem spans_nest {source : String} {number : Nat} {tokens : List Token}
    {parsed : ParsedScript} {part : Part} (hlex : lex source = .ok tokens)
    (hparse : parse number tokens = .ok parsed)
    (hpart : Relation.ReflTransGen (Part.Has parsed.program)
      (.script parsed.script) part) :
    part.Nests tokens parsed.program := by
  have hordered := OrderedTokens.of_lex hlex
  obtain ⟨j, first, last, hfirst, hlast, hspan, whole, hwhole, hlaid⟩ :=
    parse_laidOut hordered (tokens_ne_nil hlex) hparse
  -- What each part consists of is laid out somewhere on the tokens.
  suffices hall : part.Nests tokens parsed.program ∧ ∃ a b inner,
      part.parts? parsed.program = some inner ∧
        LaidOut tokens parsed.program a b inner from hall.1
  induction hpart with
  | refl =>
      exact ⟨hlaid.nests hordered (Nat.zero_le j) hfirst hlast hspan nofun
        hwhole, 0, j + 1, whole, hwhole, hlaid⟩
  | tail _ hhas ih =>
      obtain ⟨parts, hparts, hmem⟩ := hhas
      obtain ⟨-, a, b, inner, hinner, hlaid'⟩ := ih
      rw [hparts] at hinner
      cases hinner
      obtain ⟨k, l, own, -, -, hfrom, hown, hlaidOwn⟩ := hlaid'.of_mem hmem
      obtain ⟨start, hstart, hline, hbegins⟩ := hfrom.first
      obtain ⟨stop, hstop, hline', hends⟩ := hfrom.last
      refine ⟨hlaidOwn.nests hordered hfrom.le hstart hstop ?_
        (fun _ => ⟨hline, hline'⟩) hown, k, l + 1, own, hown, hlaidOwn⟩
      rw [← hbegins, ← hends]

/-- A conditional in parentheses with a further condition on a later line. -/
def furtherBranch : String :=
  "if (a) \x7b\n b\n\x7d\nelif c \x7b d = (e) \x7d"

/-- The block of the further condition, which is the last part of the
statement. -/
def lastBranch? (parsed : ParsedScript) : Option Part := do
  let statements ← (Part.script parsed.script).parts? parsed.program
  let statement ← statements.head?
  let parts ← statement.parts? parsed.program
  parts.getLast?

theorem has_lastBranch? {parsed : ParsedScript} {branch : Part}
    (hbranch : lastBranch? parsed = some branch) :
    Relation.ReflTransGen (Part.Has parsed.program) (.script parsed.script)
      branch := by
  simp only [lastBranch?, Option.bind_eq_bind, Option.bind_eq_some_iff]
    at hbranch
  obtain ⟨statements, hstatements, statement, hhead, parts, hparts, hlast⟩ :=
    hbranch
  have hstatement :
      Part.Has parsed.program (.script parsed.script) statement :=
    ⟨statements, hstatements, List.mem_of_head? hhead⟩
  have hinner : Part.Has parsed.program statement branch :=
    ⟨parts, hparts, List.mem_of_getLast? hlast⟩
  exact .tail (.single hstatement) hinner

theorem parse_furtherBranch :
    ∃ tokens parsed branch, lex furtherBranch = .ok tokens ∧
      parse 0 tokens = .ok parsed ∧ lastBranch? parsed = some branch ∧
      branch.span = ⟨14, 32⟩ := by
  have hok : (lex furtherBranch).toOption.map (fun tokens =>
      (parse 0 tokens).map fun parsed =>
        (lastBranch? parsed).map Part.span) = some (.ok (some ⟨14, 32⟩)) := by
    decide +kernel
  cases hlex : lex furtherBranch with
  | error error =>
      rw [hlex] at hok
      cases hok
  | ok tokens =>
      rw [hlex] at hok
      replace hok := Option.some.inj hok
      dsimp only at hok
      cases hparse : parse 0 tokens with
      | ok parsed =>
          rw [hparse] at hok
          obtain ⟨branch, hbranch, hspan⟩ :=
            Option.map_eq_some_iff.mp (Outcome.ok.inj hok)
          exact ⟨tokens, parsed, branch, rfl, hparse, hbranch, hspan⟩
      | _ =>
          rw [hparse] at hok
          cases hok

/-- The block without braces of its own goes from the `elif` on. -/
theorem spans_nest_furtherBranch :
    ∃ (tokens : List Token) (parsed : ParsedScript) (branch : Part),
      lex furtherBranch = .ok tokens ∧ parse 0 tokens = .ok parsed ∧
      branch.span = ⟨14, 32⟩ ∧ branch.Nests tokens parsed.program := by
  obtain ⟨tokens, parsed, branch, hlex, hparse, hbranch, hspan⟩ :=
    parse_furtherBranch
  exact ⟨tokens, parsed, branch, hlex, hparse, hspan,
    spans_nest hlex hparse (has_lastBranch? hbranch)⟩

end ChainScript
