import ChainScript.Proofs.ConsumedStatements
import ChainScript.Proofs.ParsedStatements
import ChainScript.Proofs.Tiling

/-
The language that the parser accepts.

Of the tokens of a text the parser sees the kinds of the significant ones.
Whatever is a script of the uniform dialect is parsed, and whatever is parsed
is a script of the lenient one.  The documented dialect is another language:
statements with blocks that follow each other on one line are scripts of it and
are refused.
-/

namespace ChainScript

theorem mem_of_mem_significant {opened : List Mark} {token : Token}
    {tokens : List Token} (htoken : token ∈ significant opened tokens) :
    token ∈ tokens := by
  induction tokens generalizing opened with
  | nil => cases htoken
  | cons first rest ih =>
      unfold significant at htoken
      split at htoken
      · exact .tail _ (ih htoken)
      · rcases List.mem_cons.mp htoken with rfl | htoken
        · exact .head _
        · exact .tail _ (ih htoken)

theorem mem_of_mem_significantKinds {opened : List Mark} {kind : TokenKind}
    {tokens : List Token} (hkind : kind ∈ significantKinds opened tokens) :
    ∃ token ∈ tokens, token.kind = kind := by
  obtain ⟨token, htoken, rfl⟩ := List.mem_map.mp hkind
  exact ⟨token, mem_of_mem_significant htoken, rfl⟩

/-- The end of the text is no line feed, so it is significant. -/
theorem significantKinds_append_eof (opened : List Mark) (front : List Token)
    (span : Span) :
    significantKinds opened (front ++ [⟨.eof, span⟩]) =
      significantKinds opened front ++ [.eof] := by
  have hline : (Token.mk .eof span).isNewline = false := rfl
  rw [significantKinds, significant_append, List.map_append,
    significant_cons_of_counts _ (by rw [hline, Bool.and_false])]
  rfl

theorem Denotes.unsigned {text : List Char} {value : Int64}
    (hdenotes : Denotes text (.int value)) : 0 ≤ value.toInt := by
  cases hdenotes with
  | int _ hrange =>
      have hsmall : digitsValue text < 2 ^ 63 :=
        Nat.lt_of_le_of_lt hrange (by decide)
      rw [Int64.toInt_ofNat_of_lt hsmall]
      exact Int.natCast_nonneg _

/-- What the parser sees of a text. -/
theorem lexedKinds_of_lex {source : String} {tokens : List Token}
    (hlex : lex source = .ok tokens) :
    LexedKinds (significantKinds [] tokens) := by
  have hmunch := (tiles_of_lexAt hlex).maximalMunch
  constructor
  · obtain ⟨front, rfl, hfront⟩ := hmunch.ended
    refine ⟨_, significantKinds_append_eof [] front _, fun heof => ?_⟩
    obtain ⟨token, htoken, hkind⟩ := mem_of_mem_significantKinds heof
    exact hfront token htoken hkind
  · intro value hvalue
    obtain ⟨token, htoken, hkind⟩ := mem_of_mem_significantKinds hvalue
    obtain ⟨piece, -, hdenotes⟩ := hmunch.denoted token htoken
      (by rw [hkind]; nofun)
    rw [hkind] at hdenotes
    exact hdenotes.unsigned

theorem exists_of_lex (source : String) (kinds : List TokenKind)
    (hlex : (lex source).toOption.map (significantKinds []) = some kinds) :
    ∃ tokens, lex source = .ok tokens ∧ significantKinds [] tokens = kinds := by
  obtain ⟨tokens, htokens, hkinds⟩ := Option.map_eq_some_iff.mp hlex
  cases hlexed : lex source with
  | error error =>
      rw [hlexed] at htokens
      cases htokens
  | ok others =>
      rw [hlexed] at htokens
      exact ⟨tokens, congrArg _ (Option.some.inj htokens), hkinds⟩

theorem derives_of_atom {dialect : Dialect} {kinds : List TokenKind}
    (hatom : Derives dialect .atom kinds) :
    Derives dialect (.expr .assign) kinds := by
  have hsuffix : Derives dialect (.expr .suffix) kinds := by
    simpa using Derives.suffixed hatom .noSuffix
  have hchain : ∀ {level : Precedence}, level.chains = true →
      Derives dialect (.expr level.tighter) kinds →
      Derives dialect (.expr level) kinds := by
    intro level hlevel hkinds
    simpa using Derives.chain hlevel hkinds .noOperand
  have hproduct : Derives dialect (.expr .product) kinds :=
    hchain rfl (.plain rfl hsuffix)
  have hrelation : Derives dialect (.expr .relation) kinds :=
    .plain rfl (hchain rfl (hchain rfl hproduct))
  exact .plain rfl (hchain rfl (hchain rfl (.plain rfl hrelation)))

/-- The parser accepts the scripts of the uniform dialect, and whatever it
accepts is a script of the lenient one. -/
theorem accepted_language {source : String} {tokens : List Token}
    (hlex : lex source = .ok tokens) (number : Nat) :
    (Derives .uniform .script (significantKinds [] tokens) →
      ∃ parsed, parse number tokens = .ok parsed) ∧
    ∀ parsed, parse number tokens = .ok parsed →
      Derives .lenient .script (significantKinds [] tokens) :=
  have hlexed := lexedKinds_of_lex hlex
  ⟨parse_of_derives number hlexed, fun _ hparse => derives_of_parse hlexed hparse⟩

/-- A statement with a block, ended by a semicolon, and one on the next line. -/
theorem accepted_language_two_statements :
    ∃ tokens, lex "do { x };\nx" = .ok tokens ∧
      (∃ parsed, parse 0 tokens = .ok parsed) ∧
      Derives .lenient .script (significantKinds [] tokens) := by
  obtain ⟨tokens, hlex, hkinds⟩ := exists_of_lex "do { x };\nx"
    [.keyword .doKw, .mark .openBrace, .ident "x", .mark .closeBrace,
      .mark .semicolon, .newline, .ident "x", .eof] (by decide +kernel)
  obtain ⟨haccepts, honly⟩ := accepted_language hlex 0
  have hname : ∀ gap, Breaks gap →
      Derives .uniform (.statements false) (gap ++ [.ident "x"]) :=
    fun gap hgap => .lastStatement rfl hgap
      (.ofSmall (.evaluate (derives_of_atom (.name "x"))))
  have hderives : Derives .uniform .script (significantKinds [] tokens) := by
    have hnone : Breaks [] := nofun
    have hline : Breaks [.newline] := by simp [Breaks]
    rw [hkinds]
    exact .script (.nextStatement _ rfl hnone
      (.ofCompound (.scope (.block (hname [] hnone)))) (by decide)
      (hname [.newline] hline))
  obtain ⟨parsed, hparse⟩ := haccepts hderives
  exact ⟨tokens, hlex, ⟨parsed, hparse⟩, honly parsed hparse⟩

section Dialects

variable {dialect : Dialect} {inLoop : Bool} {kinds : List TokenKind}

/-- An empty block after `do`. -/
def emptyDo : List TokenKind :=
  [.keyword .doKw, .mark .openBrace, .mark .closeBrace]

theorem derives_emptyDo (dialect : Dialect) (inLoop : Bool) :
    Derives dialect (.compound inLoop) emptyDo :=
  have hnone : Breaks [] := nofun
  .scope (.block (.noStatement hnone))

theorem Derives.small_ne_do (hsmall : Derives dialect (.small inLoop) kinds) :
    firstOf kinds ≠ .keyword .doKw := by
  cases hsmall with
  | leave word hword | leaveWith word hword | loopExit word hword =>
      simp only [List.mem_cons, List.not_mem_nil, or_false] at hword
      rcases hword with rfl | rfl <;> nofun
  | evaluate hvalue => exact hvalue.starts.1.ne rfl

theorem Derives.inline_ne_do (hinline : Derives dialect (.inline inLoop) kinds) :
    firstOf kinds ≠ .keyword .doKw := by
  cases hinline with
  | inlineOne hstmt => exact hstmt.small_ne_do
  | inlineClosed hstmt | inlineMore hstmt _ =>
      rw [firstOf_append (ne_nil_of_startsStmt hstmt.starts)]
      exact hstmt.small_ne_do

theorem Breaks.eq_nil_of_append {gap more : List TokenKind} (hgap : Breaks gap)
    (hfirst : firstOf (gap ++ more) ≠ .newline) : gap = [] := by
  cases gap with
  | nil => rfl
  | cons kind gap => exact absurd (hgap kind List.mem_cons_self) hfirst

/-- After a statement with blocks the documented dialect has no semicolon. -/
theorem not_statements_emptyDo_semicolon :
    ¬ Derives .documented (.statements inLoop)
      (emptyDo ++ [.mark .semicolon]) := by
  intro hstatements
  generalize hkinds : emptyDo ++ [.mark .semicolon] = kinds at hstatements
  have hfirst : firstOf kinds = .keyword .doKw := by
    rw [← hkinds]
    rfl
  cases hstatements with
  | lastStatement hends | nextStatement last hends => cases hends
  | noStatement hgap =>
      rw [← hkinds] at hgap
      exact nomatch hgap _ List.mem_cons_self
  | lastInline _ hgap hstmts =>
      obtain rfl := hgap.eq_nil_of_append (by rw [hfirst]; nofun)
      exact hstmts.inline_ne_do hfirst
  | @nextInline _ gap stmts others _ hgap hstmts =>
      rw [List.append_assoc] at hfirst
      obtain rfl := hgap.eq_nil_of_append (by rw [hfirst]; nofun)
      rw [List.nil_append,
        firstOf_append (ne_nil_of_startsStmt hstmts.starts)] at hfirst
      exact hstmts.inline_ne_do hfirst
  | @nextCompound _ gap stmt others _ hgap hstmt hothers =>
      rw [List.append_assoc] at hfirst hkinds
      obtain rfl := hgap.eq_nil_of_append (by rw [hfirst]; nofun)
      obtain ⟨body, rfl, hbody⟩ : ∃ body, stmt = .keyword .doKw :: body ∧
          Derives .documented (.block inLoop) body := by
        cases hstmt <;> first | exact ⟨_, rfl, ‹_›⟩ | cases hkinds
      cases hbody with
      | @block _ stmts hstmts =>
          have hrest : [.mark .closeBrace, .mark .semicolon] =
              stmts ++ .mark .closeBrace :: others := by
            simpa [emptyDo] using hkinds
          rcases stmts with _ | ⟨first, _ | ⟨second, stmts⟩⟩
          · obtain rfl := (List.cons.inj hrest).2
            rcases hothers.starts with hgap | hstarts
            · exact nomatch hgap _ List.mem_cons_self
            · cases hstarts
          · cases hrest
          · have hlength := congrArg List.length hrest
            simp at hlength

end Dialects

/-- Two blocks in a row are a script of the documented dialect and are refused,
and a block with a semicolon after it is accepted and is not a script of the
documented dialect. -/
theorem documented_dialect_differs :
    (∃ tokens, lex "do { } do { }" = .ok tokens ∧
      Derives .documented .script (significantKinds [] tokens) ∧
      ∀ parsed, parse 0 tokens ≠ .ok parsed) ∧
    ∃ tokens, lex "do { };" = .ok tokens ∧
      ¬ Derives .documented .script (significantKinds [] tokens) ∧
      ∃ parsed, parse 0 tokens = .ok parsed := by
  have hnone : Breaks [] := nofun
  constructor
  · obtain ⟨tokens, hlex, hkinds⟩ := exists_of_lex "do { } do { }"
      (emptyDo ++ emptyDo ++ [.eof]) (by decide +kernel)
    refine ⟨tokens, hlex, ?_, fun parsed hparse => ?_⟩
    · have hlast : Derives .documented (.statements false) emptyDo := by
        simpa using Derives.nextCompound rfl hnone
          (derives_emptyDo _ false) (.noStatement hnone)
      rw [hkinds]
      exact .script (.nextCompound rfl hnone (derives_emptyDo _ _) hlast)
    · have hrefused : (lex "do { } do { }").toOption.map (fun tokens =>
          decide ((parse 0 tokens).map (fun _ => ()) = .ok ())) =
          some false := by
        decide +kernel
      rw [hlex] at hrefused
      exact absurd (congrArg (Outcome.map fun _ => ()) hparse)
        (of_decide_eq_false (Option.some.inj hrefused))
  · obtain ⟨tokens, hlex, hkinds⟩ := exists_of_lex "do { };"
      (emptyDo ++ [.mark .semicolon, .eof]) (by decide +kernel)
    refine ⟨tokens, hlex, fun hscript => ?_, ?_⟩
    · generalize hall : significantKinds [] tokens = all at hscript
      cases hscript with
      | @script body hbody =>
          rw [hkinds] at hall
          have hsame : emptyDo ++ [.mark .semicolon] = body :=
            List.append_cancel_right hall
          rw [← hsame] at hbody
          exact not_statements_emptyDo_semicolon hbody
    · refine parse_of_derives 0 (lexedKinds_of_lex hlex) ?_
      rw [hkinds]
      exact .script (.nextStatement _ rfl hnone
        (.ofCompound (derives_emptyDo _ _)) (by decide) (.noStatement hnone))

end ChainScript
