import ChainScript.Cursor
import ChainScript.Proofs.BuiltPrograms

/-
The parts of a program, laid out on tokens.

A part of a program has parts of its own, in the order in which they are
written, some of them by reference to a row.  They are laid out on tokens if
each of them covers tokens from a first to a last one, the next one begins
behind it, and its own parts are laid out from its first token to its last one.
-/

namespace ChainScript

/-- A part of a program that has a place. -/
inductive Part where
  | expr (row : Expr)
  | entry (row : Entry)
  | param (row : Param)
  | func (row : FuncDef)
  | block (body : Block)
  | stmt (row : Stmt)
  | script (whole : Script)

/-- How a part, or a list of parts, is referred to. -/
inductive PartRef where
  | part (part : Part)
  | expr (id : ExprId)
  | func (id : FuncId)
  | stmt (id : StmtId)
  | entries (range : EntryRange)
  | params (range : ParamRange)
  | stmts (range : StmtRange)

def ExprKind.refs : ExprKind → List PartRef
  | .member receiver _ => [.expr receiver]
  | .index receiver key => [.expr receiver, .expr key]
  | .array range | .args range => [.entries range]
  | .binary _ left right | .compose left right => [.expr left, .expr right]
  | .unary _ operand => [.expr operand]
  | .call callee range => [.expr callee, .entries range]
  | .assign _ value => [.expr value]
  | .func definition => [.func definition]
  | .null | .bool _ | .int _ | .float _ | .str _ | .ident _ | .badge _ => []

def EntryKind.refs : EntryKind → List PartRef
  | .item value | .keyed _ value => [.expr value]
  | .expand _ => []

def StmtKind.refs : StmtKind → List PartRef
  | .expr value => [.expr value]
  | .branch condition thenBlock elseBlock =>
      [.expr condition, .part (.block thenBlock)] ++
        elseBlock.toList.map fun block => .part (.block block)
  | .scope body | .assignBlock _ body | .inheritBlock _ _ body =>
      [.part (.block body)]
  | .loop _ _ iterated body => [.expr iterated, .part (.block body)]
  | .attempt body recovery =>
      [.part (.block body), .part (.block recovery.body)]
  | .resource acquired _ body => [.expr acquired, .part (.block body)]
  | .funcBlock _ definition => [.func definition]
  | .return value | .raise value => value.toList.map .expr
  | .break | .continue => []

namespace Part

def span : Part → Span
  | .expr row => row.span
  | .entry row => row.span
  | .param row => row.span
  | .func row => row.span
  | .block body => body.span
  | .stmt row => row.span
  | .script whole => whole.span

/-- What a part consists of, in the order in which it is written. -/
def refs : Part → List PartRef
  | .expr row => row.kind.refs
  | .entry row => row.kind.refs
  | .param row => row.default.toList.map .expr
  | .func row => [.params row.params, .part (.block row.body)]
  | .block body => [.stmts body.stmts]
  | .stmt row => row.kind.refs
  | .script whole => [.stmts whole.body]

end Part

namespace Program

variable (program : Program)

/-- The statements of a list. -/
def stmtParts? : List StmtId → Option (List Part)
  | [] => some []
  | id :: rest => do
      return .stmt (← program.stmt? id) :: (← stmtParts? rest)

/-- The parts that are referred to. -/
def resolve? : PartRef → Option (List Part)
  | .part part => some [part]
  | .expr id => (program.expr? id).map fun row => [.expr row]
  | .func id => (program.func? id).map fun row => [.func row]
  | .stmt id => (program.stmt? id).map fun row => [.stmt row]
  | .entries range => (program.entries? range).map (List.map .entry)
  | .params range => (program.params? range).map (List.map .param)
  | .stmts range => do program.stmtParts? (← program.stmtList? range)

/-- All parts that are referred to, if they are there. -/
def parts? : List PartRef → Option (List Part)
  | [] => some []
  | ref :: rest => do return (← program.resolve? ref) ++ (← parts? rest)

end Program

/-- The parts of a part. -/
def Part.parts? (program : Program) (part : Part) : Option (List Part) :=
  program.parts? part.refs

namespace Program

variable {program before after : Program}

theorem parts?_append {first second : List PartRef} {parts others : List Part}
    (hfirst : program.parts? first = some parts)
    (hsecond : program.parts? second = some others) :
    program.parts? (first ++ second) = some (parts ++ others) := by
  induction first generalizing parts with
  | nil =>
      cases hfirst
      exact hsecond
  | cons ref rest ih =>
      simp only [parts?, Option.bind_eq_bind, Option.bind_eq_some_iff,
        Option.pure_def, Option.some.injEq] at hfirst
      obtain ⟨own, hown, rest, hrest, rfl⟩ := hfirst
      simp [parts?, hown, ih hrest]

theorem parts?_map_part (parts : List Part) :
    program.parts? (parts.map .part) = some parts := by
  induction parts with
  | nil => rfl
  | cons part rest ih => simp [parts?, resolve?, ih]

theorem stmtParts?_of_parts? {ids : List StmtId} {parts : List Part}
    (hparts : program.parts? (ids.map .stmt) = some parts) :
    program.stmtParts? ids = some parts := by
  induction ids generalizing parts with
  | nil => exact hparts
  | cons id rest ih =>
      simp only [List.map_cons, parts?, resolve?, Option.bind_eq_bind,
        Option.bind_eq_some_iff, Option.map_eq_some_iff, Option.pure_def,
        Option.some.injEq] at hparts
      obtain ⟨_, ⟨row, hrow, rfl⟩, others, hothers, rfl⟩ := hparts
      simp [stmtParts?, hrow, ih hothers]

section Growing

variable (hgrows : before.Grows after)

include hgrows

theorem Grows.stmtParts? {ids : List StmtId} {parts : List Part}
    (hparts : before.stmtParts? ids = some parts) :
    after.stmtParts? ids = some parts := by
  induction ids generalizing parts with
  | nil => exact hparts
  | cons id rest ih =>
      simp only [Program.stmtParts?, Option.bind_eq_bind,
        Option.bind_eq_some_iff, Option.pure_def, Option.some.injEq]
        at hparts ⊢
      obtain ⟨row, hrow, others, hothers, rfl⟩ := hparts
      exact ⟨row, hgrows.stmt? hrow, others, ih hothers, rfl⟩

theorem Grows.resolve? {ref : PartRef} {parts : List Part}
    (hparts : before.resolve? ref = some parts) :
    after.resolve? ref = some parts := by
  cases ref with
  | part part => exact hparts
  | stmts range =>
      simp only [Program.resolve?, Option.bind_eq_bind,
        Option.bind_eq_some_iff] at hparts ⊢
      obtain ⟨ids, hids, hrows⟩ := hparts
      exact ⟨ids, hgrows.stmtList? hids, hgrows.stmtParts? hrows⟩
  | expr id =>
      obtain ⟨row, hrow, rfl⟩ := Option.map_eq_some_iff.mp hparts
      exact Option.map_eq_some_iff.mpr ⟨row, hgrows.expr? hrow, rfl⟩
  | func id =>
      obtain ⟨row, hrow, rfl⟩ := Option.map_eq_some_iff.mp hparts
      exact Option.map_eq_some_iff.mpr ⟨row, hgrows.func? hrow, rfl⟩
  | stmt id =>
      obtain ⟨row, hrow, rfl⟩ := Option.map_eq_some_iff.mp hparts
      exact Option.map_eq_some_iff.mpr ⟨row, hgrows.stmt? hrow, rfl⟩
  | entries range =>
      obtain ⟨rows, hrows, rfl⟩ := Option.map_eq_some_iff.mp hparts
      exact Option.map_eq_some_iff.mpr ⟨rows, hgrows.entries? hrows, rfl⟩
  | params range =>
      obtain ⟨rows, hrows, rfl⟩ := Option.map_eq_some_iff.mp hparts
      exact Option.map_eq_some_iff.mpr ⟨rows, hgrows.params? hrows, rfl⟩

theorem Grows.parts? {refs : List PartRef} {parts : List Part}
    (hparts : before.parts? refs = some parts) :
    after.parts? refs = some parts := by
  induction refs generalizing parts with
  | nil => exact hparts
  | cons ref rest ih =>
      simp only [Program.parts?, Option.bind_eq_bind, Option.bind_eq_some_iff,
        Option.pure_def, Option.some.injEq] at hparts ⊢
      obtain ⟨own, hown, others, hothers, rfl⟩ := hparts
      exact ⟨own, hgrows.resolve? hown, others, ih hothers, rfl⟩

end Growing

end Program

/-- Each token ends before the next one starts, and not before it starts
itself. -/
structure OrderedTokens (tokens : List Token) : Prop where
  start_le : ∀ token ∈ tokens, token.span.start ≤ token.span.stop
  pairwise : tokens.Pairwise fun left right =>
    left.span.stop ≤ right.span.start

namespace OrderedTokens

variable {tokens : List Token} {i j : Nat} {first last : Token}

theorem stop_le (hordered : OrderedTokens tokens)
    (hfirst : tokens[i]? = some first) (hlast : tokens[j]? = some last)
    (hlt : i < j) : first.span.stop ≤ last.span.start := by
  obtain ⟨hi, rfl⟩ := List.getElem?_eq_some_iff.mp hfirst
  obtain ⟨hj, rfl⟩ := List.getElem?_eq_some_iff.mp hlast
  exact List.pairwise_iff_getElem.mp hordered.pairwise i j hi hj hlt

theorem starts_le (hordered : OrderedTokens tokens)
    (hfirst : tokens[i]? = some first) (hlast : tokens[j]? = some last)
    (hle : i ≤ j) : first.span.start ≤ last.span.start := by
  rcases Nat.eq_or_lt_of_le hle with rfl | hlt
  · rw [hfirst] at hlast
    cases hlast
    exact Nat.le_refl _
  · exact Nat.le_trans
      (hordered.start_le first (List.mem_of_getElem? hfirst))
      (hordered.stop_le hfirst hlast hlt)

theorem stops_le (hordered : OrderedTokens tokens)
    (hfirst : tokens[i]? = some first) (hlast : tokens[j]? = some last)
    (hle : i ≤ j) : first.span.stop ≤ last.span.stop := by
  rcases Nat.eq_or_lt_of_le hle with rfl | hlt
  · rw [hfirst] at hlast
    cases hlast
    exact Nat.le_refl _
  · exact Nat.le_trans (hordered.stop_le hfirst hlast hlt)
      (hordered.start_le last (List.mem_of_getElem? hlast))

end OrderedTokens

/-- The span goes from the start of the `i`th token to the end of the `j`th,
and these are no line feeds. -/
structure Span.From (tokens : List Token) (i j : Nat) (span : Span) :
    Prop where
  le : i ≤ j
  first : ∃ token, tokens[i]? = some token ∧ token.isNewline = false ∧
    span.start = token.span.start
  last : ∃ token, tokens[j]? = some token ∧ token.isNewline = false ∧
    span.stop = token.span.stop

namespace Span

variable {tokens : List Token} {i j k l : Nat} {left right : Span}

theorem from_token {token : Token} (htoken : tokens[i]? = some token)
    (hvisible : token.isNewline = false) : token.span.From tokens i i :=
  ⟨Nat.le_refl i, ⟨token, htoken, hvisible, rfl⟩,
    ⟨token, htoken, hvisible, rfl⟩⟩

/-- Two spans in order are merged to all from the first token of one to the
last token of the other. -/
theorem From.merge (hordered : OrderedTokens tokens)
    (hleft : left.From tokens i j) (hright : right.From tokens k l)
    (hstart : i ≤ k) (hstop : j ≤ l) : (left.merge right).From tokens i l := by
  obtain ⟨hle, ⟨first, hfirst, hvisible, hi⟩, ⟨last, hlast, -, hj⟩⟩ := hleft
  obtain ⟨-, ⟨other, hother, -, hk⟩, ⟨end_, hend, hvisible', hl⟩⟩ := hright
  refine ⟨by omega, ⟨first, hfirst, hvisible, ?_⟩,
    ⟨end_, hend, hvisible', ?_⟩⟩
  · have hmin := hordered.starts_le hfirst hother hstart
    simp only [Span.merge]
    omega
  · have hmax := hordered.stops_le hlast hend hstop
    simp only [Span.merge]
    omega

/-- A span of later tokens begins behind. -/
theorem From.stop_le (hordered : OrderedTokens tokens)
    (hleft : left.From tokens i j) (hright : right.From tokens k l)
    (hlt : j < k) : left.stop ≤ right.start := by
  obtain ⟨last, hlast, -, hstop⟩ := hleft.last
  obtain ⟨first, hfirst, -, hstart⟩ := hright.first
  rw [hstop, hstart]
  exact hordered.stop_le hlast hfirst hlt

end Span

/-- The parts are laid out on the tokens from one position up to another. -/
inductive LaidOut (tokens : List Token) (program : Program) :
    Nat → Nat → List Part → Prop where
  | nil {a b : Nat} (hle : a ≤ b) : LaidOut tokens program a b []
  | cons {a b i j : Nat} {part : Part} {inner rest : List Part} (hle : a ≤ i)
      (hspan : part.span.From tokens i j)
      (hparts : part.parts? program = some inner)
      (hinner : LaidOut tokens program i (j + 1) inner)
      (hrest : LaidOut tokens program (j + 1) b rest) :
      LaidOut tokens program a b (part :: rest)

namespace LaidOut

variable {tokens : List Token} {program before after : Program}
  {a b c d m i j : Nat} {part : Part} {inner parts others : List Part}

theorem le (hlaid : LaidOut tokens program a b parts) : a ≤ b := by
  induction hlaid with
  | nil hle => exact hle
  | cons hle hspan _ _ _ _ ih =>
      have hij := hspan.le
      omega

theorem mono (hlaid : LaidOut tokens program a b parts) (hstart : c ≤ a)
    (hstop : b ≤ d) : LaidOut tokens program c d parts := by
  induction hlaid generalizing c with
  | nil hle => exact .nil (by omega)
  | cons hle hspan hparts hinner _ _ ih =>
      exact .cons (by omega) hspan hparts hinner (ih (Nat.le_refl _) hstop)

theorem grows (hlaid : LaidOut tokens before a b parts)
    (hgrows : before.Grows after) : LaidOut tokens after a b parts := by
  induction hlaid with
  | nil hle => exact .nil hle
  | cons hle hspan hparts _ _ ihinner ihrest =>
      exact .cons hle hspan (hgrows.parts? hparts) ihinner ihrest

theorem append (hfirst : LaidOut tokens program a m parts)
    (hsecond : LaidOut tokens program m b others) :
    LaidOut tokens program a b (parts ++ others) := by
  induction hfirst with
  | nil hle => exact hsecond.mono hle (Nat.le_refl b)
  | cons hle hspan hparts hinner _ _ ih =>
      exact .cons hle hspan hparts hinner (ih hsecond)

/-- Behind the last token that is no line feed there is nothing. -/
theorem trim (hlaid : LaidOut tokens program a b parts) (hstart : a ≤ m + 1)
    (hlines : ∀ k token, m < k → k < b → tokens[k]? = some token →
      token.isNewline = true) : LaidOut tokens program a (m + 1) parts := by
  induction hlaid with
  | nil hle => exact .nil hstart
  | @cons _ _ _ j _ _ _ hle hspan hparts hinner hrest _ ih =>
      refine .cons hle hspan hparts hinner (ih ?_ hlines)
      obtain ⟨token, htoken, hvisible, -⟩ := hspan.last
      have hin := hrest.le
      by_cases hlate : m < j
      · have hline := hlines j token hlate (by omega) htoken
        rw [hvisible] at hline
        cases hline
      · omega

/-- A part on exactly its tokens. -/
theorem exact (hspan : part.span.From tokens i j)
    (hparts : part.parts? program = some inner)
    (hinner : LaidOut tokens program i (j + 1) inner) :
    LaidOut tokens program i (j + 1) [part] :=
  .cons (Nat.le_refl i) hspan hparts hinner (.nil (Nat.le_refl _))

/-- What is known of one of the parts. -/
theorem of_mem (hlaid : LaidOut tokens program a b parts)
    (hpart : part ∈ parts) :
    ∃ i j inner, a ≤ i ∧ j < b ∧ part.span.From tokens i j ∧
      part.parts? program = some inner ∧
      LaidOut tokens program i (j + 1) inner := by
  induction hlaid with
  | nil hle => exact absurd hpart List.not_mem_nil
  | cons hle hspan hparts hinner hrest _ ih =>
      have hij := hspan.le
      have hrest' := hrest.le
      rcases List.mem_cons.mp hpart with rfl | hpart
      · exact ⟨_, _, _, hle, by omega, hspan, hparts, hinner⟩
      · obtain ⟨i, j, inner, hi, hj, hfound⟩ := ih hpart
        exact ⟨i, j, inner, by omega, hj, hfound⟩

/-- Parts that are laid out stand in order. -/
theorem ordered (hordered : OrderedTokens tokens)
    (hlaid : LaidOut tokens program a b parts) :
    parts.Pairwise fun left right => left.span.stop ≤ right.span.start := by
  induction hlaid with
  | nil hle => exact .nil
  | cons hle hspan _ _ hrest _ ih =>
      refine List.pairwise_cons.mpr ⟨fun other hother => ?_, ih⟩
      obtain ⟨i, j, _, hi, _, hfrom, _⟩ := hrest.of_mem hother
      exact hspan.stop_le hordered hfrom hi

end LaidOut

/-- What is referred to is there, and laid out on the tokens from one position
up to another. -/
def Placed (tokens : List Token) (program : Program) (a b : Nat)
    (refs : List PartRef) : Prop :=
  ∃ parts, program.parts? refs = some parts ∧ LaidOut tokens program a b parts

namespace Placed

variable {tokens : List Token} {program before after : Program}
  {a b c d m i j : Nat} {part : Part} {refs others : List PartRef}

theorem nil (hle : a ≤ b) : Placed tokens program a b [] :=
  ⟨[], rfl, .nil hle⟩

theorem le (hplaced : Placed tokens program a b refs) : a ≤ b := by
  obtain ⟨_, _, hlaid⟩ := hplaced
  exact hlaid.le

theorem mono (hplaced : Placed tokens program a b refs) (hstart : c ≤ a)
    (hstop : b ≤ d) : Placed tokens program c d refs := by
  obtain ⟨parts, hparts, hlaid⟩ := hplaced
  exact ⟨parts, hparts, hlaid.mono hstart hstop⟩

theorem grows (hplaced : Placed tokens before a b refs)
    (hgrows : before.Grows after) : Placed tokens after a b refs := by
  obtain ⟨parts, hparts, hlaid⟩ := hplaced
  exact ⟨parts, hgrows.parts? hparts, hlaid.grows hgrows⟩

theorem append (hfirst : Placed tokens program a m refs)
    (hsecond : Placed tokens program m b others) :
    Placed tokens program a b (refs ++ others) := by
  obtain ⟨parts, hparts, hlaid⟩ := hfirst
  obtain ⟨more, hmore, hlaid'⟩ := hsecond
  exact ⟨parts ++ more, Program.parts?_append hparts hmore,
    hlaid.append hlaid'⟩

theorem trim (hplaced : Placed tokens program a b refs) (hstart : a ≤ m + 1)
    (hlines : ∀ k token, m < k → k < b → tokens[k]? = some token →
      token.isNewline = true) : Placed tokens program a (m + 1) refs := by
  obtain ⟨parts, hparts, hlaid⟩ := hplaced
  exact ⟨parts, hparts, hlaid.trim hstart hlines⟩

/-- References to the same parts are placed alike. -/
theorem congr (hplaced : Placed tokens program a b refs)
    (hsame : ∀ parts, program.parts? refs = some parts →
      program.parts? others = some parts) :
    Placed tokens program a b others := by
  obtain ⟨parts, hparts, hlaid⟩ := hplaced
  exact ⟨parts, hsame parts hparts, hlaid⟩

/-- A part is placed where it covers tokens on which what it refers to is
placed. -/
theorem node (hstart : a ≤ i) (hstop : j < b)
    (hspan : part.span.From tokens i j)
    (hrefs : Placed tokens program i (j + 1) part.refs) :
    Placed tokens program a b [.part part] := by
  obtain ⟨inner, hinner, hlaid⟩ := hrefs
  exact ⟨[part], rfl, (LaidOut.exact hspan hinner hlaid).mono hstart hstop⟩

/-- Where a part is placed. -/
theorem exists_from (hplaced : Placed tokens program a b [.part part]) :
    ∃ i j, a ≤ i ∧ j < b ∧ part.span.From tokens i j ∧
      Placed tokens program i (j + 1) part.refs ∧
      Placed tokens program i (j + 1) [.part part] := by
  obtain ⟨parts, hparts, hlaid⟩ := hplaced
  cases hparts
  obtain ⟨i, j, inner, hi, hj, hspan, hinner, hlaid'⟩ :=
    hlaid.of_mem List.mem_cons_self
  have hrefs : Placed tokens program i (j + 1) part.refs :=
    ⟨inner, hinner, hlaid'⟩
  exact ⟨i, j, hi, hj, hspan, hrefs,
    Placed.node (Nat.le_refl i) (Nat.lt_succ_self j) hspan hrefs⟩

theorem of_parts {parts : List Part} {ref : PartRef}
    (hparts : program.resolve? ref = some parts)
    (hplaced : Placed tokens program a b (parts.map .part)) :
    Placed tokens program a b [ref] := by
  refine hplaced.congr fun found hfound => ?_
  rw [Program.parts?_map_part] at hfound
  cases hfound
  simp [Program.parts?, hparts]

/-- A row is placed like the reference to it. -/
theorem of_row {ref : PartRef}
    (hplaced : Placed tokens program a b [.part part])
    (hpart : program.resolve? ref = some [part]) :
    Placed tokens program a b [ref] :=
  of_parts hpart hplaced

theorem row {ref : PartRef} (hplaced : Placed tokens program a b [ref])
    (hpart : program.resolve? ref = some [part]) :
    Placed tokens program a b [.part part] := by
  refine hplaced.congr fun parts hparts => ?_
  simp only [Program.parts?, hpart] at hparts
  exact hparts

theorem of_stmts {range : StmtRange} {ids : List StmtId}
    (hids : program.stmtList? range = some ids)
    (hplaced : Placed tokens program a b (ids.map .stmt)) :
    Placed tokens program a b [.stmts range] := by
  refine hplaced.congr fun parts hparts => ?_
  have hstmts := Program.stmtParts?_of_parts? hparts
  simp [Program.parts?, Program.resolve?, hids, hstmts]

/-- The row of an expression that is placed, and its tokens. -/
theorem exists_expr {id : ExprId}
    (hplaced : Placed tokens program a b [.expr id]) :
    ∃ row i j, program.expr? id = some row ∧ a ≤ i ∧ j < b ∧
      row.span.From tokens i j ∧
      Placed tokens program i (j + 1) [.expr id] := by
  cases hrow : program.expr? id with
  | none =>
      obtain ⟨parts, hparts, -⟩ := hplaced
      simp [Program.parts?, Program.resolve?, hrow] at hparts
  | some row =>
      have hpart : program.resolve? (.expr id) = some [.expr row] := by
        simp only [Program.resolve?, hrow, Option.map_some]
      obtain ⟨i, j, hi, hj, hspan, -, hexact⟩ :=
        (hplaced.row hpart).exists_from
      exact ⟨row, i, j, rfl, hi, hj, hspan, hexact.of_row hpart⟩

/-- A new row is placed on the tokens that it covers. -/
theorem of_added {ref : PartRef} (hgrows : program.Grows after)
    (hpart : after.resolve? ref = some [part]) (hstart : a ≤ i) (hstop : j < b)
    (hspan : part.span.From tokens i j)
    (hrefs : Placed tokens program i (j + 1) part.refs) :
    Placed tokens after a b [ref] :=
  (node hstart hstop hspan (hrefs.grows hgrows)).of_row hpart

theorem addExpr {kind : ExprKind} {span : Span} (hstart : a ≤ i)
    (hstop : j < b) (hspan : span.From tokens i j)
    (hrefs : Placed tokens program i (j + 1) kind.refs) :
    let added := program.addExpr ⟨kind, span⟩
    Placed tokens added.2 a b [.expr added.1] := by
  intro added
  have hpart : added.2.resolve? (.expr added.1) =
      some [.expr ⟨kind, span⟩] := by
    simp only [Program.resolve?, added, Program.expr?_addExpr, Option.map_some]
  exact of_added (Program.grows_addExpr _ _) hpart hstart hstop hspan hrefs

theorem addStmt {kind : StmtKind} {span : Span} (hstart : a ≤ i)
    (hstop : j < b) (hspan : span.From tokens i j)
    (hrefs : Placed tokens program i (j + 1) kind.refs) :
    let added := program.addStmt ⟨kind, span⟩
    Placed tokens added.2 a b [.stmt added.1] := by
  intro added
  have hpart : added.2.resolve? (.stmt added.1) =
      some [.stmt ⟨kind, span⟩] := by
    simp only [Program.resolve?, added, Program.stmt?_addStmt, Option.map_some]
  exact of_added (Program.grows_addStmt _ _) hpart hstart hstop hspan hrefs

theorem addFunc {func : FuncDef} (hstart : a ≤ i) (hstop : j < b)
    (hspan : func.span.From tokens i j)
    (hrefs : Placed tokens program i (j + 1)
      [.params func.params, .part (.block func.body)]) :
    let added := program.addFunc func
    Placed tokens added.2 a b [.func added.1] := by
  intro added
  have hpart : added.2.resolve? (.func added.1) = some [.func func] := by
    simp only [Program.resolve?, added, Program.func?_addFunc, Option.map_some]
  exact of_added (Program.grows_addFunc _ _) hpart hstart hstop hspan hrefs

theorem addEntries {entries : List Entry}
    (hplaced : Placed tokens program a b
      (entries.map fun entry => .part (.entry entry))) :
    let added := program.addEntries entries
    Placed tokens added.2 a b [.entries added.1] := by
  intro added
  have hrows : added.2.resolve? (.entries added.1) =
      some (entries.map .entry) := by
    simp only [Program.resolve?, added, Program.entries?_addEntries,
      Option.map_some]
  refine of_parts hrows ?_
  rw [List.map_map]
  exact hplaced.grows (Program.grows_addEntries program entries)

theorem addParams {params : List Param}
    (hplaced : Placed tokens program a b
      (params.map fun param => .part (.param param))) :
    let added := program.addParams params
    Placed tokens added.2 a b [.params added.1] := by
  intro added
  have hrows : added.2.resolve? (.params added.1) =
      some (params.map .param) := by
    simp only [Program.resolve?, added, Program.params?_addParams,
      Option.map_some]
  refine of_parts hrows ?_
  rw [List.map_map]
  exact hplaced.grows (Program.grows_addParams program params)

theorem addStmtList {ids : List StmtId}
    (hplaced : Placed tokens program a b (ids.map .stmt)) :
    let added := program.addStmtList ids
    Placed tokens added.2 a b [.stmts added.1] := by
  intro added
  exact of_stmts (Program.stmtList?_addStmtList program ids)
    (hplaced.grows (Program.grows_addStmtList program ids))

end Placed

end ChainScript
