import ChainScript.Proofs.RespacedRuns

/-
Expressions in lists with the same significant tokens.

Each rule follows itself when the rules that it refers back to do, one level of
depth further down.  Delimiters are opened and closed in the same rule, so that
a rule that answers ends with the same open delimiters as it started with.
-/

namespace ChainScript

open Step

/-- The rules of the second grammar follow those of the first one.  The rule
for branches is only ever run at the word that starts a branch.  That the first
grammar is steady is all that is needed of its thrift, so one table will do. -/
structure Grammar.Follows (first second : Grammar) : Prop where
  thrifty : first.Thrifty .exprs 0
  rule : ∀ rule, rule ≠ .branch → Parse.Follows (first rule) (second rule)
  branch : ∀ {opened left right}, left.InStep opened right →
    ¬ left.cursor.Lost → left.cursor.kind.isPlain = true →
    Parse.FollowsAt opened (first .branch) (second .branch) left right

namespace Parse

variable {α β : Type} {opened : List Mark} {left right : ParserState}

section Tables

theorem follows_span : Follows span span :=
  follows_look fun hstep hlive => hstep.span_eq hlive

/-- The token before the cursor is significant, so both runs see the same one.
-/
theorem follows_previousSpan : Follows previousSpan previousSpan :=
  follows_look fun hstep _ => hstep.previous

theorem follows_kind : Follows kind kind :=
  follows_look fun hstep _ => hstep.kind_eq

theorem follows_check (kind : TokenKind) : Follows (check kind) (check kind) :=
  follows_look fun hstep _ => hstep.check_eq kind

/-- The tables are the same, so a number refers to the same row. -/
theorem follows_expr (id : ExprId) : Follows (expr id) (expr id) :=
  (follows_read fun _ _ hprogram _ => by rw [hprogram]).bind fun _ =>
    follows_found _

theorem follows_spanOf (id : ExprId) : Follows (spanOf id) (spanOf id) :=
  (follows_expr id).bind fun _ => follows_pure _

theorem follows_addJoined (join : ExprId → ExprId → ExprKind)
    (first second : ExprId) :
    Follows (addJoined join first second) (addJoined join first second) :=
  (follows_spanOf first).bind fun _ => (follows_spanOf second).bind fun _ =>
    follows_add _

theorem follows_addUnary (op : UnaryOp) (start : Span) (operand : ExprId) :
    Follows (addUnary op start operand) (addUnary op start operand) :=
  (follows_spanOf operand).bind fun _ => follows_add _

end Tables

section Spelled

/-- Delimiters spell nothing of what is read off tokens. -/
def ReadsPlain (read? : TokenKind → Option α) : Prop :=
  ∀ kind found, read? kind = some found → kind.isPlain = true

/-- Names, words and literals are no delimiters, so only marks are to be looked
at. -/
theorem readsPlain_of_marks {read? : TokenKind → Option α}
    (hmarks : ∀ symbol,
      read? (.mark symbol) = none ∨ (TokenKind.mark symbol).isPlain = true) :
    ReadsPlain read? := by
  intro kind found hread
  cases kind with
  | mark symbol =>
      refine (hmarks symbol).resolve_left fun hnone => ?_
      rw [hnone] at hread
      cases hread
  | _ => rfl

theorem readsPlain_keyOf? : ReadsPlain keyOf? :=
  readsPlain_of_marks fun _ => .inl rfl

theorem readsPlain_simple? : ReadsPlain simple? :=
  readsPlain_of_marks fun _ => .inl rfl

theorem readsPlain_sign? : ReadsPlain sign? :=
  readsPlain_of_marks (by rintro ⟨⟩ <;> first | exact .inl rfl | exact .inr rfl)

theorem readsPlain_comparison? : ReadsPlain comparison? :=
  readsPlain_of_marks (by rintro ⟨⟩ <;> first | exact .inl rfl | exact .inr rfl)

theorem readsPlain_product? : ReadsPlain product? :=
  readsPlain_of_marks (by rintro ⟨⟩ <;> first | exact .inl rfl | exact .inr rfl)

theorem readsPlain_sum? : ReadsPlain sum? :=
  readsPlain_of_marks (by rintro ⟨⟩ <;> first | exact .inl rfl | exact .inr rfl)

theorem readsPlain_logical? (word : Keyword) (op : BinaryOp) :
    ReadsPlain (logical? word op) :=
  readsPlain_of_marks fun _ => .inl (if_neg nofun)

theorem readsPlain_composeJoiner : ReadsPlain composeJoiner :=
  readsPlain_of_marks (by rintro ⟨⟩ <;> first | exact .inl rfl | exact .inr rfl)

/-- What a token is read as says nothing about what is done with it. -/
theorem ReadsPlain.binaryJoiner {operator? : TokenKind → Option BinaryOp}
    (hplain : ReadsPlain operator?) : ReadsPlain (binaryJoiner operator?) := by
  intro kind join hjoin
  obtain ⟨op, hop, -⟩ := Option.map_eq_some_iff.mp hjoin
  exact hplain kind op hop

end Spelled

section Chains

variable {joiner : Joiner} {operand other : Parse ExprId}

/-- The second run may give up for want of rounds.  Otherwise each round of one
is a round of the other, and joins the next operand with the same operator. -/
theorem follows_chainFrom (heof : joiner .eof = none)
    (hplain : ReadsPlain joiner)
    (hthrifty : Thrifty .exprs 0 1 0 operand fun _ => 0)
    (hoperand : Follows operand other) (rounds others : Nat) (start : ExprId) :
    Follows (chainFrom joiner operand rounds start)
      (chainFrom joiner other others start) := by
  induction rounds generalizing others start with
  | zero => exact follows_halt _ _
  | succ rounds ih =>
      have hfirst := (thrifty_chainFrom heof hthrifty (rounds + 1) start).steady
      cases others with
      | zero => exact follows_exhausted (hfirst.mono (by omega) (Nat.le_refl 0))
      | succ others =>
          refine follows_of hfirst fun opened left right hstep hlive => ?_
          refine FollowsAt.look hstep.cursor.kind_eq ?_
          cases hjoin : joiner left.cursor.kind with
          | none => exact (follows_pure start).follow hstep hlive
          | some join =>
              refine (followsAt_advance hstep hlive (hplain _ _ hjoin)).bind
                fun _ => ?_
              exact hoperand.bind fun next =>
                (follows_addJoined join start next).bind fun joined =>
                  ih others joined

theorem follows_chain (heof : joiner .eof = none) (hplain : ReadsPlain joiner)
    (hthrifty : Thrifty .exprs 0 1 0 operand fun _ => 0)
    (hoperand : Follows operand other) :
    Follows (chain joiner operand) (chain joiner other) :=
  hoperand.bind fun start => follows_rounds fun rounds others =>
    follows_chainFrom heof hplain hthrifty hoperand rounds others start

end Chains

variable {first second : Grammar} (hgrammar : first.Follows second)

include hgrammar

section Lists

/-- A key and its colon are plain tokens, so that both runs look past them to
the same value. -/
theorem follows_entry : Follows (entry first) (entry second) := by
  refine follows_of (thrifty_entry hgrammar.thrifty).steady
    fun opened left right hstep hlive => ?_
  have hitem : Follows
      (do
        let value ← first .expr
        return Entry.mk (.item value) (← spanOf value))
      (do
        let value ← second .expr
        return Entry.mk (.item value) (← spanOf value)) :=
    (hgrammar.rule .expr nofun).bind fun value =>
      (follows_spanOf value).bind fun _ => follows_pure _
  refine FollowsAt.look (hstep.cursor.span_eq hlive) ?_
  refine FollowsAt.eat (by rfl) hstep ?_ ?_
  · exact follows_expectIdent.bind fun name =>
      follows_previousSpan.bind fun _ => follows_pure _
  · refine FollowsAt.look hstep.cursor.kind_eq ?_
    cases hkey : keyOf? left.cursor.kind with
    | none => exact FollowsAt.lookEach (hitem.follow hstep hlive)
    | some key =>
        have hplain := readsPlain_keyOf? _ _ hkey
        refine FollowsAt.look (hstep.cursor.peek_one_eq hplain) ?_
        split
        · next hsome hcolon =>
          cases hsome
          refine (followsAt_advance hstep hlive hplain).bindAt (fun _ => ?_) ?_
          · exact steady_advance.bind fun _ =>
              (hgrammar.rule .expr nofun).steady.bind fun value =>
                (steady_spanOf value).bind fun _ => steady_pure _
          · rintro _ after last ⟨⟩ hafter hlive
            have hnext : left.cursor.advance.kind = .mark .colon :=
              (hstep.cursor.kind_advance_eq
                (left.cursor.kind_ne_of_some rfl hkey)).trans hcolon
            refine (followsAt_advance hafter hlive (by rw [hnext]; rfl)).bind
              fun _ => ?_
            exact (hgrammar.rule .expr nofun).bind fun value =>
              (follows_spanOf value).bind fun _ => follows_pure _
        · exact hitem.follow hstep hlive

/-- The runs may be allowed different numbers of rounds, as in a chain. -/
theorem follows_entriesFrom (opener : TokenKind) (place : Span)
    {close : TokenKind} (rounds others : Nat) (comma : Bool) :
    Follows (entriesFrom first opener place close rounds comma)
      (entriesFrom second opener place close others comma) := by
  induction rounds generalizing others comma with
  | zero => exact follows_halt _ _
  | succ rounds ih =>
      cases others with
      | zero =>
          have hfirst := thrifty_entriesFrom hgrammar.thrifty opener place close
            (rounds + 1) comma
          exact follows_exhausted
            (hfirst.steady.mono (by omega) (Nat.le_refl 0))
      | succ others =>
          refine (follows_check close).bind fun closed => ?_
          split
          · exact follows_pure _
          · refine (follows_entry hgrammar).bind fun entry => ?_
            refine (follows_eat (by rfl)).bind fun comma => ?_
            refine (follows_check close).bind fun last => ?_
            split
            · exact follows_fault _ _
            · exact (ih others comma).bind fun _ => follows_pure _

/-- A list between delimiters, in front of its opener. -/
theorem followsAt_delimited {mark close : Mark} (hbracket : mark.isBracket = true)
    (hopens : openAfter opened (.mark mark) = mark :: opened)
    (hcloses : openAfter (mark :: opened) (.mark close) = opened)
    (hstep : left.InStep opened right) (hlive : ¬ left.cursor.Lost)
    (hkind : left.cursor.kind = .mark mark) :
    FollowsAt opened (delimited first (.mark mark) (.mark close))
      (delimited second (.mark mark) (.mark close)) left right := by
  refine FollowsAt.look (hstep.cursor.span_eq hlive) ?_
  refine followsAt_region hstep hkind hopens (by rw [hbracket]; rfl) ?_ ?_ ?_
  · exact follows_rounds fun rounds others =>
      follows_entriesFrom hgrammar _ _ rounds others false
  · rintro ⟨entries, comma⟩ after last hleaving
    exact (followsAt_expectClose hleaving hcloses).bind fun _ => follows_pure _
  · rintro ⟨entries, comma⟩ state hrest
    exact expect_bind_ne_ok rfl hrest

theorem followsAt_arrayLiteral (hstep : left.InStep opened right)
    (hlive : ¬ left.cursor.Lost)
    (hkind : left.cursor.kind = .mark .openBracket) :
    FollowsAt opened (arrayLiteral first) (arrayLiteral second) left right := by
  apply FollowsAt.within
  refine (followsAt_delimited hgrammar rfl rfl rfl hstep hlive hkind).bind ?_
  rintro ⟨entries, comma, span⟩
  exact (follows_add _).bind fun _ => follows_add _

/-- Whether a comma comes last decides between a group and an argument list, and
both runs see the same commas. -/
theorem followsAt_parenthesised (hstep : left.InStep opened right)
    (hlive : ¬ left.cursor.Lost) (hkind : left.cursor.kind = .mark .openParen) :
    FollowsAt opened (parenthesised first) (parenthesised second) left
      right := by
  refine ((followsAt_delimited hgrammar rfl rfl rfl hstep hlive hkind).within
    _).bind ?_
  rintro ⟨entries, comma, span⟩
  dsimp only
  split
  · exact follows_pure _
  · exact (follows_add _).bind fun _ => follows_add _

theorem followsAt_call (callee : ExprId) (hstep : left.InStep opened right)
    (hlive : ¬ left.cursor.Lost) (hkind : left.cursor.kind = .mark .openParen) :
    FollowsAt opened (call first callee) (call second callee) left right := by
  apply FollowsAt.within
  refine (followsAt_delimited hgrammar rfl rfl rfl hstep hlive hkind).bind ?_
  rintro ⟨entries, comma, span⟩
  exact (follows_add _).bind fun _ => (follows_spanOf callee).bind fun _ =>
    follows_add _

/-- Nothing but a closing bracket ends the region, so a run that is lost inside
has no answer. -/
theorem followsAt_index (receiver : ExprId) (hstep : left.InStep opened right)
    (hlive : ¬ left.cursor.Lost)
    (hkind : left.cursor.kind = .mark .openBracket) :
    FollowsAt opened (index first receiver) (index second receiver) left
      right := by
  apply FollowsAt.within
  refine FollowsAt.look (hstep.cursor.span_eq hlive) ?_
  refine followsAt_region hstep hkind rfl rfl (hgrammar.rule .expr nofun) ?_ ?_
  · intro key after last hleaving
    exact followsAt_checkClose hleaving rfl fun _ =>
      (follows_spanOf receiver).bind fun _ => follows_add _
  · exact fun _ _ hrest => check_bind_ne_ok rfl hrest

theorem follows_default? : Follows (default? first) (default? second) := by
  refine (follows_eat (by rfl)).bind fun written => ?_
  split
  · exact (hgrammar.rule .expr nofun).bind fun _ => follows_pure _
  · exact follows_pure _

/-- What comes after the name depends only on the dots in front of it. -/
theorem follows_param : Follows (param first) (param second) := by
  refine follows_span.bind fun start => ?_
  refine (follows_eat (by rfl)).bind fun rest => ?_
  refine follows_expectIdent.bind fun name => ?_
  have hrest : ∀ default : Option ExprId, Follows
      (do return Param.mk name default rest (start.merge (← previousSpan)))
      (do return Param.mk name default rest (start.merge (← previousSpan))) :=
    fun _ => follows_previousSpan.bind fun _ => follows_pure _
  split
  · exact (follows_pure none).bind hrest
  · exact (follows_default? hgrammar).bind hrest

theorem follows_paramsFrom (place : Span) (rounds others : Nat) :
    Follows (paramsFrom first place rounds)
      (paramsFrom second place others) := by
  induction rounds generalizing others with
  | zero => exact follows_halt _ _
  | succ rounds ih =>
      cases others with
      | zero =>
          have hfirst := thrifty_paramsFrom hgrammar.thrifty place (rounds + 1)
          exact follows_exhausted
            (hfirst.steady.mono (by omega) (Nat.le_refl 0))
      | succ others =>
          refine (follows_check _).bind fun closed => ?_
          split
          · exact follows_pure _
          · refine (follows_param hgrammar).bind fun param => ?_
            refine (follows_check _).bind fun last => ?_
            split
            · exact follows_fault _ _
            · refine (follows_eat (by rfl)).bind fun comma => ?_
              split
              · exact follows_fault _ _
              · exact (ih others).bind fun _ => follows_pure _

/-- Without an opener neither run enters a region. -/
theorem follows_params : Follows (params first) (params second) := by
  refine follows_of (thrifty_params hgrammar.thrifty).steady
    fun opened left right hstep hlive => ?_
  refine FollowsAt.look (hstep.cursor.span_eq hlive) ?_
  by_cases hkind : left.cursor.kind = .mark .openParen
  · have hother := hstep.cursor.kind_eq ▸ hkind
    refine FollowsAt.congr ?_ (expect_inRegion _ _ hkind)
      (expect_inRegion _ _ hother)
    refine followsAt_region hstep hkind rfl rfl ?_ ?_ ?_
    · exact follows_rounds fun rounds others =>
        follows_paramsFrom hgrammar _ rounds others
    · exact fun params after last hleaving =>
        (followsAt_expectClose hleaving rfl).bind fun _ => follows_pure _
    · exact fun _ _ hrest => expect_bind_ne_ok rfl hrest
  · intro params after hrun _
    obtain ⟨token, between, hexpect, -⟩ := bind_eq_ok hrun
    have hcheck := mt (TokenKind.sameVariant_mark_iff _ _).mp hkind
    simp [expect, ofCursor, Cursor.expect, Cursor.check, hcheck] at hexpect

end Lists

section Operands

omit hgrammar in
/-- The key stands on the token right behind the sign for it. -/
theorem followsAt_badge (hstep : left.InStep opened right)
    (hlive : ¬ left.cursor.Lost) (hplain : left.cursor.kind.isPlain = true) :
    FollowsAt opened badge badge left right := by
  refine (followsAt_advance hstep hlive hplain).bind fun start => ?_
  refine ⟨?_, fun {opened left right} hstep hlive => ?_⟩
  · refine (steady_look _).bind fun token => ?_
    split
    · exact steady_fault _
    · exact steady_advance.bind fun _ => steady_add _
  refine FollowsAt.look (hstep.cursor.current_eq hlive) ?_
  split
  · exact (follows_fault _ _).follow hstep hlive
  · next key hkey =>
    rw [Cursor.kind_current] at hkey
    exact (followsAt_advance hstep hlive (readsPlain_keyOf? _ _ hkey)).bind
      fun _ => follows_add _

theorem follows_functionRest (name : String) (start : Span) :
    Follows (functionRest first name start) (functionRest second name start) := by
  refine ((follows_params hgrammar).within _).bind fun params => ?_
  refine (hgrammar.rule .block nofun).inFunction.bind fun body => ?_
  exact (follows_add _).bind fun _ => follows_add _

theorem followsAt_functionExpr (hstep : left.InStep opened right)
    (hlive : ¬ left.cursor.Lost) (hplain : left.cursor.kind.isPlain = true) :
    FollowsAt opened (functionExpr first) (functionExpr second) left right := by
  apply FollowsAt.within
  refine (followsAt_advance hstep hlive hplain).bind fun _ => ?_
  refine (follows_functionRest hgrammar _ _).bind fun _ => ?_
  exact follows_previousSpan.bind fun _ => follows_add _

/-- The first token decides which rule the atom is of. -/
theorem follows_atom : Follows (atom first) (atom second) := by
  refine follows_of (thrifty_atom hgrammar.thrifty).steady
    fun opened left right hstep hlive => ?_
  refine FollowsAt.look hstep.cursor.kind_eq ?_
  split
  · next hkind => exact followsAt_badge hstep hlive (by rw [hkind]; rfl)
  · next hkind => exact followsAt_arrayLiteral hgrammar hstep hlive hkind
  · next hkind => exact followsAt_parenthesised hgrammar hstep hlive hkind
  · next hkind =>
    exact followsAt_functionExpr hgrammar hstep hlive (by rw [hkind]; rfl)
  · split
    · exact (follows_fault _ _).follow hstep hlive
    · next simple hsimple =>
      have hplain := readsPlain_simple? _ _ hsimple
      exact (followsAt_advance hstep hlive hplain).bind fun _ => follows_add _

omit hgrammar in
/-- As with a badge, the key stands right behind the dot. -/
theorem followsAt_member (receiver : ExprId) (hstep : left.InStep opened right)
    (hlive : ¬ left.cursor.Lost) (hplain : left.cursor.kind.isPlain = true) :
    FollowsAt opened (member receiver) (member receiver) left right := by
  apply FollowsAt.within
  refine (followsAt_advance hstep hlive hplain).bind fun _ => ?_
  refine ⟨?_, fun {opened left right} hstep hlive => ?_⟩
  · refine (steady_look _).bind fun token => ?_
    dsimp only
    split
    · exact steady_fault _
    · exact steady_advance.bind fun _ => (steady_spanOf _).bind fun _ =>
        steady_add _
  refine FollowsAt.look (hstep.cursor.current_eq hlive) ?_
  dsimp only
  split
  · exact followsAt_fault _
  · next key hkey =>
    have hmember : left.cursor.kind.isPlain = true := by
      rw [Cursor.kind_current] at hkey
      cases hkind : left.cursor.kind with
      | mark symbol =>
          rw [hkind] at hkey
          cases hkey
      | _ => rfl
    refine (followsAt_advance hstep hlive hmember).bind fun _ => ?_
    exact (follows_spanOf receiver).bind fun _ => follows_add _

/-- Each suffix starts at its own token. An opener there starts a region in both
runs. -/
theorem follows_postfixFrom (rounds others : Nat) (start : ExprId) :
    Follows (postfixFrom first rounds start)
      (postfixFrom second others start) := by
  induction rounds generalizing others start with
  | zero => exact follows_halt _ _
  | succ rounds ih =>
      have hfirst :=
        (thrifty_postfixFrom hgrammar.thrifty (rounds + 1) start).steady
      cases others with
      | zero => exact follows_exhausted (hfirst.mono (by omega) (Nat.le_refl 0))
      | succ others =>
          refine follows_of hfirst fun opened left right hstep hlive => ?_
          refine FollowsAt.look hstep.cursor.kind_eq ?_
          split
          · next hkind =>
            exact (followsAt_call hgrammar start hstep hlive hkind).bind
              fun found => ih others found
          · next hkind =>
            exact (followsAt_member start hstep hlive (by rw [hkind]; rfl)).bind
              fun found => ih others found
          · next hkind =>
            exact (followsAt_index hgrammar start hstep hlive hkind).bind
              fun found => ih others found
          · exact (follows_pure start).follow hstep hlive

theorem follows_postfixExpr :
    Follows (postfixExpr first) (postfixExpr second) :=
  (follows_atom hgrammar).bind fun start => follows_rounds fun rounds others =>
    follows_postfixFrom hgrammar rounds others start

end Operands

section Operators

theorem follows_signExpr : Follows (signExpr first) (signExpr second) := by
  refine follows_of (thrifty_signExpr hgrammar.thrifty).steady
    fun opened left right hstep hlive => ?_
  refine FollowsAt.look hstep.cursor.kind_eq ?_
  split
  · exact (follows_postfixExpr hgrammar).follow hstep hlive
  · next op hsign =>
    have hplain := readsPlain_sign? _ _ hsign
    refine (followsAt_advance hstep hlive hplain).bind fun _ => ?_
    exact (hgrammar.rule .signExpr nofun).bind fun operand =>
      follows_addUnary _ _ operand

/-- The three chains of sums, products and compositions nest. -/
theorem follows_composeExpr :
    Follows (composeExpr first) (composeExpr second) := by
  have hsign : Thrifty .exprs 0 1 0 (signExpr first) fun _ => 0 :=
    (thrifty_signExpr hgrammar.thrifty).weaken (Nat.zero_le _) (Nat.le_refl 1)
  have hproduct : Thrifty .exprs 0 1 0 (productExpr first) fun _ => 0 :=
    thrifty_chain rfl hsign
  have hsum : Thrifty .exprs 0 1 0 (sumExpr first) fun _ => 0 :=
    thrifty_chain rfl hproduct
  refine follows_chain rfl readsPlain_composeJoiner hsum ?_
  refine follows_chain rfl readsPlain_sum?.binaryJoiner hproduct ?_
  exact follows_chain rfl readsPlain_product?.binaryJoiner hsign
    (follows_signExpr hgrammar)

/-- A second comparison is an error, which nothing has to follow. -/
theorem follows_relationExpr :
    Follows (relationExpr first) (relationExpr second) := by
  refine (follows_composeExpr hgrammar).bind fun start => ?_
  have hrest : ∀ op, Follows
      (do
        let operand ← composeExpr first
        if (comparison? (← kind)).isSome then
          fault fun _ => .chainedComparison
        else
          addJoined (.binary op) start operand)
      (do
        let operand ← composeExpr second
        if (comparison? (← kind)).isSome then
          fault fun _ => .chainedComparison
        else
          addJoined (.binary op) start operand) := by
    intro op
    refine (follows_composeExpr hgrammar).bind fun operand => ?_
    refine follows_kind.bind fun found => ?_
    split
    · exact follows_fault _ _
    · exact follows_addJoined _ _ _
  refine ⟨?_, fun {opened left right} hstep hlive => ?_⟩
  · refine (steady_look _).bind fun found => ?_
    split
    · exact steady_pure _
    · exact steady_advance.bind fun _ => (hrest _).steady
  refine FollowsAt.look hstep.cursor.kind_eq ?_
  split
  · exact (follows_pure start).follow hstep hlive
  · next op hop =>
    have hplain := readsPlain_comparison? _ _ hop
    exact (followsAt_advance hstep hlive hplain).bind fun _ => hrest op

theorem follows_notExpr : Follows (notExpr first) (notExpr second) := by
  refine follows_of (thrifty_notExpr hgrammar.thrifty).steady
    fun opened left right hstep hlive => ?_
  refine FollowsAt.look (hstep.cursor.check_eq _) ?_
  split
  · next hcheck =>
    have hkind := (TokenKind.sameVariant_keyword_iff _ _).mp hcheck
    refine (followsAt_advance hstep hlive (by rw [hkind]; rfl)).bind fun _ => ?_
    exact (hgrammar.rule .notExpr nofun).bind fun operand =>
      follows_addUnary _ _ operand
  · exact (follows_relationExpr hgrammar).follow hstep hlive

theorem follows_orExpr : Follows (orExpr first) (orExpr second) := by
  have hnot : Thrifty .exprs 0 1 0 (notExpr first) fun _ => 0 :=
    (thrifty_notExpr hgrammar.thrifty).weaken (Nat.zero_le _) (Nat.le_refl 1)
  have hand : Thrifty .exprs 0 1 0 (andExpr first) fun _ => 0 :=
    thrifty_chain rfl hnot
  refine follows_chain rfl (readsPlain_logical? _ _).binaryJoiner hand ?_
  exact follows_chain rfl (readsPlain_logical? _ _).binaryJoiner hnot
    (follows_notExpr hgrammar)

/-- The value of an assignment, in front of the sign for it. -/
theorem followsAt_assigned (target : Expr) (hstep : left.InStep opened right)
    (hlive : ¬ left.cursor.Lost) (hplain : left.cursor.kind.isPlain = true) :
    FollowsAt opened
      (match target? target.kind with
        | none => faultAt target.span .invalidTarget
        | some key => do
            let _ ← advance
            let value ← first .expr
            addExpr (.assign key value)
              (target.span.merge (← spanOf value)))
      (match target? target.kind with
        | none => faultAt target.span .invalidTarget
        | some key => do
            let _ ← advance
            let value ← second .expr
            addExpr (.assign key value)
              (target.span.merge (← spanOf value))) left right := by
  split
  · exact (follows_fail _ _).follow hstep hlive
  · refine (followsAt_advance hstep hlive hplain).bind fun _ => ?_
    exact (hgrammar.rule .expr nofun).bind fun value =>
      (follows_spanOf value).bind fun _ => follows_add _

theorem follows_assignExpr :
    Follows (assignExpr first) (assignExpr second) := by
  have hassigned : ∀ target : Expr, Steady 0 0
      (match target? target.kind with
        | none => faultAt target.span .invalidTarget
        | some key => do
            let _ ← advance
            let value ← first .expr
            addExpr (.assign key value)
              (target.span.merge (← spanOf value))) := by
    intro target
    split
    · exact steady_fail _
    · exact steady_advance.bind fun _ =>
        (hgrammar.rule .expr nofun).steady.bind fun value =>
          (steady_spanOf value).bind fun _ => steady_add _
  refine (follows_orExpr hgrammar).bind fun target => ?_
  refine ⟨?_, fun {opened left right} hstep hlive => ?_⟩
  · refine (steady_look _).bind fun assigned => ?_
    split
    · exact (steady_expr target).bind hassigned
    · exact steady_pure _
  refine FollowsAt.look (hstep.cursor.check_eq _) ?_
  split
  · next hcheck =>
    refine ((follows_expr target).follow hstep hlive).bindAt hassigned ?_
    intro row after last hrow hafter hlive
    obtain rfl : left = after := congrArg Prod.snd hrow
    have hkind := (TokenKind.sameVariant_mark_iff _ _).mp hcheck
    exact followsAt_assigned hgrammar row hafter hlive (by rw [hkind]; rfl)
  · exact (follows_pure target).follow hstep hlive

end Operators

end Parse

end ChainScript
