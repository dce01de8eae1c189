import ChainScript.Proofs.BuildingSteps

/-
The parser builds programs row by row, whether parsing succeeds or not, and
what it answers with reads as a syntax tree.

Each rule of the grammar adds rows that refer to the rows of its parts, and
answers with a reference to a row that it has added.  Every place that it writes
into a table or reports in an error is that of a token, that of a row which is
there already, or covers two of these.
-/

namespace ChainScript

open Step

namespace Parse

section Expressions

variable {zone : Zone} {loops : Bool} {base : Program}

/-- A joiner that makes expressions of its two operands only. -/
def Joins (joiner : Joiner) : Prop :=
  ∀ kind join, joiner kind = some join →
    ∀ (program : Program) left right, program.ShowsExpr left →
      program.ShowsExpr right → program.Shows .expr (join left right)

theorem joins_binaryJoiner (operator? : TokenKind → Option BinaryOp) :
    Joins (binaryJoiner operator?) := by
  rintro kind join hjoin program left right ⟨one, hone⟩ ⟨other, hother⟩
  obtain ⟨op, _, rfl⟩ := Option.map_eq_some_iff.mp hjoin
  exact ⟨.binary op one other, left, right, rfl, hone, hother⟩

theorem joins_composeJoiner : Joins composeJoiner := by
  rintro kind join hjoin program left right ⟨one, hone⟩ ⟨other, hother⟩
  unfold composeJoiner at hjoin
  split at hjoin
  · cases hjoin
    exact ⟨.compose one other, left, right, rfl, hone, hother⟩
  · cases hjoin

/-- The row of two joined operands covers both. -/
theorem builds_addJoined {join : ExprId → ExprId → ExprKind}
    {left right : ExprId} (hleft : base.ShowsExpr left)
    (hright : base.ShowsExpr right)
    (hjoin : base.Shows .expr (join left right)) :
    Builds zone loops base (addJoined join left right) Program.ShowsExpr :=
  (quiet_spanOf hleft.hasExpr).andThen fun _ hone =>
    (quiet_spanOf hright.hasExpr).andThen fun _ hother =>
      builds_addExpr (zone.merge hone hother) hjoin

/-- The operands so far read as a tree, which the next round joins. -/
theorem builds_chainFrom {joiner : Joiner} (hjoins : Joins joiner)
    {operand : Parse ExprId}
    (hoperand : ∀ base, Builds zone loops base operand Program.ShowsExpr)
    (rounds : Nat) {left : ExprId} (hleft : base.ShowsExpr left) :
    Builds zone loops base (chainFrom joiner operand rounds left)
      Program.ShowsExpr := by
  induction rounds generalizing base left with
  | zero => exact builds_exhausted
  | succ rounds ih =>
      apply (quiet_look _).andThen
      intro kind _
      cases hjoin : joiner kind with
      | none => exact builds_pure fun _ hgrows => hleft.grows hgrows
      | some join =>
          apply quiet_advance.andThen
          intro _ _
          apply (hoperand base).bind
          intro program right hgrows hright
          have hleft := hleft.grows hgrows
          have hmade := hjoins kind join hjoin program left right hleft hright
          exact (builds_addJoined hleft hright hmade).bind
            fun _ _ _ hmade => ih hmade

theorem builds_chain {joiner : Joiner} (hjoins : Joins joiner)
    {operand : Parse ExprId}
    (hoperand : ∀ base, Builds zone loops base operand Program.ShowsExpr) :
    Builds zone loops base (chain joiner operand) Program.ShowsExpr :=
  (hoperand base).bind fun _ _ _ hfirst =>
    (quiet_look _).andThen fun rounds _ =>
      builds_chainFrom hjoins hoperand rounds hfirst

/-- A list that neither goes on nor is closed is reported at its opener. -/
theorem builds_listFault {α : Type} {Good : Program → α → Prop}
    {opener close : TokenKind} {place : Span} (hplace : zone.Has place) :
    Builds zone loops base (listFault opener place close) Good := by
  refine builds_fault fun kind label hlabel => ?_
  split at hlabel
  · rw [List.mem_singleton.mp hlabel]
    exact hplace
  · cases hlabel

end Expressions

end Parse

/-- What is good about the answer of a rule. -/
def Rule.Good (loops : Bool) : (rule : Rule) → Program → rule.Result → Prop
  | .expr => Program.ShowsExpr
  | .notExpr => Program.ShowsExpr
  | .signExpr => Program.ShowsExpr
  | .block => fun program block => program.ShowsStmts loops block.stmts
  | .branch => fun program form => program.Shows (.stmt loops) form

/-- Parsers for the rules that build programs. -/
def Grammar.Builds (zone : Zone) (grammar : Grammar) : Prop :=
  ∀ rule loops base,
    Parse.Builds zone loops base (grammar rule) (rule.Good loops)

namespace Parse

/-- The position of a literal that is not negative can be spelled. -/
theorem spelled_index {value : Int64} (hnonneg : 0 ≤ value.toInt) :
    Key.Spelled (.index value.toUInt64) := by
  have hnat : value.toUInt64.toNat = value.toNatClampNeg :=
    Int64.toNat_toUInt64_of_le (Int64.le_iff_toInt_le.mpr hnonneg)
  have hclamp : value.toNatClampNeg = value.toInt.toNat := rfl
  have hlt := value.toInt_lt
  simp only [Key.Spelled, hnat, hclamp, maxInteger]
  omega

theorem spelled_keyOf? {kind : TokenKind} {key : Key}
    (hkey : keyOf? kind = some key) : key.Spelled := by
  unfold keyOf? at hkey
  split at hkey
  · cases hkey; trivial
  · cases hkey; trivial
  · split at hkey
    · next hnonneg => cases hkey; exact spelled_index hnonneg
    · cases hkey
  · cases hkey

/-- A list of entries reads as a tree if its first entry does alone and the
others do. -/
theorem shows_cons_entry {program : Program} {first : Entry}
    {others : List Entry} (hfirst : program.Shows .entries [first])
    (hothers : program.Shows .entries others) :
    program.Shows .entries (first :: others) := by
  obtain ⟨one, hone⟩ := hfirst
  obtain ⟨rest, hrest⟩ := hothers
  cases one with
  | noEntries => cases hone
  | item value =>
      obtain ⟨id, span, _, hrows, hvalue, _⟩ := hone
      obtain ⟨rfl, _⟩ := List.cons.inj hrows
      exact ⟨.item value rest, id, span, others, rfl, hvalue, hrest⟩
  | keyed key value =>
      obtain ⟨id, span, _, hrows, hvalue, _⟩ := hone
      obtain ⟨rfl, _⟩ := List.cons.inj hrows
      exact ⟨.keyed key value rest, id, span, others, rfl, hvalue, hrest⟩
  | expand name =>
      obtain ⟨span, _, hrows, _⟩ := hone
      obtain ⟨rfl, _⟩ := List.cons.inj hrows
      exact ⟨.expand name rest, span, others, rfl, hrest⟩

/-- A parameter that collects what is left over can only be the last one. -/
theorem shows_cons_param {program : Program} {first : Param}
    {others : List Param} (hfirst : program.Shows .params [first])
    (hlast : first.rest = true → others = [])
    (hothers : program.Shows .params others) :
    program.Shows .params (first :: others) := by
  obtain ⟨one, hone⟩ := hfirst
  obtain ⟨rest, hrest⟩ := hothers
  cases one with
  | noParams => cases hone
  | rest name =>
      obtain ⟨span, hrows⟩ := hone
      obtain ⟨rfl, _⟩ := List.cons.inj hrows
      exact ⟨.rest name, span, by rw [hlast rfl]⟩
  | param name default =>
      obtain ⟨value, span, _, hrows, hdefault, _⟩ := hone
      obtain ⟨rfl, _⟩ := List.cons.inj hrows
      exact ⟨.param name default rest, value, span, others, rfl, hdefault,
        hrest⟩

/-- A single plain entry shows its expression. -/
theorem showsExpr_of_item {program : Program} {value : ExprId} {span : Span}
    (hitem : program.Shows .entries [⟨.item value, span⟩]) :
    program.ShowsExpr value := by
  obtain ⟨tree, hat⟩ := hitem
  cases tree with
  | noEntries => cases hat
  | item tree =>
      obtain ⟨id, place, rest, hrows, hvalue, _⟩ := hat
      cases hrows
      exact ⟨tree, hvalue⟩
  | keyed =>
      obtain ⟨id, place, rest, hrows, _⟩ := hat
      cases hrows
  | expand =>
      obtain ⟨place, rest, hrows, _⟩ := hat
      cases hrows

/-- Entries that read as a tree and have places in the zone. -/
structure GoodEntries (zone : Zone) (program : Program) (entries : List Entry) :
    Prop where
  shows : program.Shows .entries entries
  inside : ∀ entry ∈ entries, zone.Has entry.span

theorem GoodEntries.grows {zone : Zone} {older newer : Program}
    {entries : List Entry} (hentries : GoodEntries zone older entries)
    (hgrows : older.Grows newer) : GoodEntries zone newer entries :=
  ⟨hentries.shows.grows hgrows, hentries.inside⟩

theorem GoodEntries.cons {zone : Zone} {program : Program} {first : Entry}
    {others : List Entry} (hfirst : GoodEntries zone program [first])
    (hothers : GoodEntries zone program others) :
    GoodEntries zone program (first :: others) :=
  ⟨shows_cons_entry hfirst.shows hothers.shows, List.forall_mem_cons.mpr
    ⟨hfirst.inside first List.mem_cons_self, hothers.inside⟩⟩

variable {zone : Zone} {grammar : Grammar} (hgrammar : grammar.Builds zone)
  {loops : Bool} {base : Program}

include hgrammar

theorem builds_expr :
    Builds zone loops base (grammar .expr) Program.ShowsExpr :=
  hgrammar .expr loops base

theorem builds_block :
    Builds zone loops base (grammar .block) fun program block =>
      program.ShowsStmts loops block.stmts :=
  hgrammar .block loops base

/-- An entry reads as a list of its own. What is expanded is a name, which needs
no row. -/
theorem builds_entry :
    Builds zone loops base (entry grammar) fun program entry =>
      GoodEntries zone program [entry] := by
  apply quiet_span.andThen
  intro start hstart
  apply (quiet_eat _).andThen
  intro expands _
  split
  · exact quiet_expectIdent.andThen fun name _ =>
      quiet_previousSpan.andThen fun _ hlast => builds_pure fun _ _ =>
        ⟨⟨.expand name .noEntries, _, [], rfl, rfl⟩,
          List.forall_mem_singleton.mpr (zone.merge hstart hlast)⟩
  · apply (quiet_look _).andThen
    intro kind _
    apply (quiet_look _).andThen
    intro second _
    split
    · next key hkey =>
        refine quiet_advance.andThen fun _ _ =>
          quiet_advance.andThen fun _ _ => ?_
        apply (builds_expr hgrammar).bind
        intro program value _ hvalue
        refine (quiet_spanOf hvalue.hasExpr).andThen fun _ hspan =>
          builds_pure ?_
        intro after hgrows
        obtain ⟨tree, htree⟩ := hvalue.grows hgrows
        exact ⟨⟨.keyed ⟨key, spelled_keyOf? hkey⟩ tree .noEntries, value, _, [],
          rfl, htree, rfl⟩,
          List.forall_mem_singleton.mpr (zone.merge hstart hspan)⟩
    · apply (builds_expr hgrammar).bind
      intro program value _ hvalue
      refine (quiet_spanOf hvalue.hasExpr).andThen fun _ hspan =>
        builds_pure ?_
      intro after hgrows
      obtain ⟨tree, htree⟩ := hvalue.grows hgrows
      exact ⟨⟨.item tree .noEntries, value, _, [], rfl, htree, rfl⟩,
        List.forall_mem_singleton.mpr hspan⟩

/-- The first entry is still good when the rows of the others are there. -/
theorem builds_entriesFrom (opener : TokenKind) {place : Span}
    (hplace : zone.Has place) (close : TokenKind) (rounds : Nat)
    (comma : Bool) :
    Builds zone loops base
      (entriesFrom grammar opener place close rounds comma)
      fun program result => GoodEntries zone program result.1 := by
  induction rounds generalizing base comma with
  | zero => exact builds_exhausted
  | succ rounds ih =>
      apply (quiet_look _).andThen
      intro closed _
      split
      · exact builds_pure fun _ _ => ⟨⟨.noEntries, rfl⟩, nofun⟩
      · apply (builds_entry hgrammar).bind
        intro program first _ hfirst
        apply (quiet_eat _).andThen
        intro comma _
        apply (quiet_look _).andThen
        intro last _
        split
        · exact builds_listFault hplace
        · apply (ih _).bind
          intro after result hgrows hothers
          exact builds_pure fun _ hmore =>
            ((hfirst.grows hgrows).grows hmore).cons (hothers.grows hmore)

/-- A list between delimiters: its entries, and the place of the whole. -/
theorem builds_delimited (opener close : TokenKind) :
    Builds zone loops base (delimited grammar opener close)
      fun program result =>
        GoodEntries zone program result.1 ∧ zone.Has result.2.2 := by
  apply quiet_span.andThen
  intro place hplace
  apply (quiet_advance.andThen fun _ _ =>
    (quiet_look _).andThen fun rounds _ => builds_entriesFrom hgrammar opener
      hplace close rounds false).inRegion false |>.bind
  rintro program ⟨entries, comma⟩ _ hentries
  exact (quiet_expect _).andThen fun last hlast => builds_pure
    fun _ hgrows => ⟨hentries.grows hgrows, zone.merge hplace hlast⟩

theorem builds_arrayLiteral :
    Builds zone loops base (arrayLiteral grammar) Program.ShowsExpr := by
  apply Builds.within _
  apply (builds_delimited hgrammar _ _).bind
  rintro program ⟨entries, comma, span⟩ _ ⟨hentries, hspan⟩
  apply (builds_addEntries hentries.inside hentries.shows).bind
  rintro after range _ ⟨tree, hrange⟩
  exact builds_addExpr hspan ⟨.array tree, range, rfl, hrange⟩

/-- A group is the expression in it, and adds no row. -/
theorem builds_parenthesised :
    Builds zone loops base (parenthesised grammar) Program.ShowsExpr := by
  apply (builds_delimited hgrammar _ _).within _ |>.bind
  rintro program ⟨entries, comma, span⟩ _ ⟨hentries, hspan⟩
  dsimp only
  split
  · exact builds_pure fun _ hgrows =>
      (showsExpr_of_item hentries.shows).grows hgrows
  · apply (builds_addEntries hentries.inside hentries.shows).bind
    rintro after range _ ⟨tree, hrange⟩
    exact builds_addExpr hspan ⟨.args tree, range, rfl, hrange⟩

omit hgrammar in
theorem builds_badge : Builds zone loops base badge Program.ShowsExpr := by
  apply quiet_advance.andThen
  intro start hstart
  apply quiet_lookToken.andThen
  intro token htoken
  split
  · exact builds_fault nofun
  · next key hkey =>
      exact quiet_advance.andThen fun _ _ =>
        builds_addExpr (zone.merge hstart htoken)
          ⟨.badge ⟨key, spelled_keyOf? hkey⟩, rfl⟩

/-- No default is written, or the expression for one. -/
theorem builds_default? :
    Builds zone loops base (default? grammar) fun program default =>
      program.Shows .optional default := by
  apply (quiet_eat _).andThen
  intro written _
  split
  · apply (builds_expr hgrammar).bind
    intro program value _ hvalue
    apply builds_pure
    intro _ hgrows
    obtain ⟨tree, htree⟩ := hvalue.grows hgrows
    exact ⟨.present tree, value, rfl, htree⟩
  · exact builds_pure fun _ _ => ⟨.absent, rfl⟩

/-- A parameter reads as a list of its own. -/
theorem builds_param :
    Builds zone loops base (param grammar) fun program param =>
      program.Shows .params [param] := by
  apply (quiet_look _).andThen
  intro start _
  apply (quiet_eat _).andThen
  intro rest _
  apply quiet_expectIdent.andThen
  intro name _
  split
  · next hrest =>
      subst hrest
      rw [Step.pure_bind]
      exact (quiet_look _).andThen fun _ _ =>
        builds_pure fun _ _ => ⟨.rest name, _, rfl⟩
  · next hrest =>
      rw [Bool.not_eq_true] at hrest
      subst hrest
      apply (builds_default? hgrammar).bind
      intro program default _ hdefault
      refine (quiet_look _).andThen fun last _ => builds_pure ?_
      intro _ hgrows
      obtain ⟨tree, htree⟩ := hdefault.grows hgrows
      exact ⟨.param name tree .noParams, default, _, [], rfl, htree, rfl⟩

omit hgrammar in
/-- In front of the close no parameters are left. -/
theorem paramsFrom_closed (place : Span) (rounds : Nat) {state : ParserState}
    (hclosed : state.cursor.check (.mark .closeParen) = true)
    {params : List Param}
    (hend : (paramsFrom grammar place rounds state).1 = .ok params) :
    params = [] := by
  cases rounds with
  | zero => cases hend
  | succ rounds =>
      unfold paramsFrom at hend
      simp only [bind_apply, check, look, read_apply, hclosed, if_true] at hend
      cases hend
      rfl

omit hgrammar in
/-- The close is no comma. -/
theorem eat_comma_closed {state : ParserState}
    (hclosed : state.cursor.check (.mark .closeParen) = true) :
    eat (.mark .comma) state = (.ok false, state) := by
  have hkind := (TokenKind.sameVariant_mark_iff _ _).mp hclosed
  simp [eat, Cursor.eat, Cursor.check, hkind, TokenKind.sameVariant]

/-- A parameter for the rest is last, so it can stand in front of those read in
the same list. -/
theorem builds_paramsFrom {place : Span} (hplace : zone.Has place)
    (rounds : Nat) :
    Builds zone loops base (paramsFrom grammar place rounds)
      fun program params => program.Shows .params params := by
  induction rounds generalizing base with
  | zero => exact builds_exhausted
  | succ rounds ih =>
      apply (quiet_look _).andThen
      intro closed _
      split
      · exact builds_pure fun _ _ => ⟨.noParams, rfl⟩
      · apply (builds_param hgrammar).bind
        intro program first _ hfirst
        refine Builds.mono (@Builds.also _ zone loops program
          (fun program params => ∃ others, params = first :: others ∧
            program.Shows .params others) _
          (fun params => first.rest = true → params = [first]) ?_ ?_) ?_
        · apply (quiet_look _).andThen
          intro last _
          split
          · exact builds_fault nofun
          · apply (quiet_eat _).andThen
            intro comma _
            split
            · exact builds_listFault hplace
            · apply ih.bind
              intro after others hgrows hothers
              exact builds_pure fun _ hmore =>
                ⟨others, rfl, hothers.grows hmore⟩
        · intro state params hend hrest
          by_cases hclosed : state.cursor.check (.mark .closeParen) = true
          · simp only [bind_apply, check, look, read_apply, hrest, hclosed,
              Bool.not_true, Bool.and_false, Bool.false_eq_true, if_false,
              eat_comma_closed hclosed] at hend
            rcases hmore : paramsFrom grammar place rounds state
              with ⟨others | error | reason, after⟩
            · rw [hmore] at hend
              cases hend
              rw [paramsFrom_closed place rounds hclosed
                (congrArg Prod.fst hmore)]
            · rw [hmore] at hend
              cases hend
            · rw [hmore] at hend
              cases hend
          · simp [bind_apply, check, look, hrest, hclosed, fault] at hend
        · rintro after _ hgrows ⟨⟨others, rfl, hothers⟩, hlast⟩
          exact shows_cons_param (hfirst.grows hgrows)
            (fun hrest => (List.cons.inj (hlast hrest)).2) hothers

theorem builds_params :
    Builds zone loops base (params grammar) fun program params =>
      program.Shows .params params := by
  apply quiet_span.andThen
  intro place hplace
  apply (quiet_expect _).andThen
  intro _ _
  apply ((quiet_look _).andThen fun rounds _ =>
    builds_paramsFrom hgrammar hplace rounds).inRegion false |>.bind
  intro program params _ hparams
  exact (quiet_expect _).andThen fun last _ =>
    builds_pure fun _ hgrows => hparams.grows hgrows

/-- No loop around the function reaches into its body. -/
theorem builds_functionRest (name : String) (start : Span) :
    Builds zone loops base (functionRest grammar name start)
      (Program.ShowsFunc · name) := by
  apply ((builds_params hgrammar).within _).bind
  intro first params _ hparams
  apply (builds_block hgrammar).inFunction.bind
  intro second body hgrows hbody
  apply (builds_addParams (hparams.grows hgrows)).bind
  intro third range hmore hrange
  exact builds_addFunc hrange (hbody.grows hmore)

theorem builds_functionExpr :
    Builds zone loops base (functionExpr grammar) Program.ShowsExpr := by
  apply Builds.within _
  apply quiet_advance.andThen
  intro start hstart
  apply (builds_functionRest hgrammar _ _).bind
  rintro program id _ ⟨params, body, hfunc⟩
  exact quiet_previousSpan.andThen fun _ hlast =>
    builds_addExpr (zone.merge hstart hlast) ⟨.func params body, id, rfl, hfunc⟩

omit hgrammar in
theorem shows_of_simple? {found : TokenKind} {form : ExprKind}
    (hsimple : simple? found = some form) (program : Program) :
    program.Shows .expr form := by
  unfold simple? at hsimple
  split at hsimple <;> cases hsimple
  · exact ⟨.null, rfl⟩
  · exact ⟨.bool true, rfl⟩
  · exact ⟨.bool false, rfl⟩
  · next value => exact ⟨.int value, rfl⟩
  · next value => exact ⟨.float value, rfl⟩
  · next text => exact ⟨.str text, rfl⟩
  · next name => exact ⟨.ident name, rfl⟩

/-- An atom is good whatever the loops around it. -/
theorem builds_atom :
    Builds zone loops base (atom grammar) Program.ShowsExpr := by
  apply (quiet_look _).andThen
  intro found _
  split
  · exact builds_badge
  · exact builds_arrayLiteral hgrammar
  · exact builds_parenthesised hgrammar
  · exact builds_functionExpr hgrammar
  · cases hsimple : simple? found with
    | none => exact builds_fault nofun
    | some simple =>
        exact quiet_advance.andThen fun _ htoken =>
          builds_addExpr htoken (shows_of_simple? hsimple base)

theorem builds_call {callee : ExprId} (hcallee : base.ShowsExpr callee) :
    Builds zone loops base (call grammar callee) Program.ShowsExpr := by
  apply Builds.within _
  apply (builds_delimited hgrammar _ _).bind
  rintro program ⟨entries, comma, span⟩ hgrows ⟨hentries, hspan⟩
  apply (builds_addEntries hentries.inside hentries.shows).bind
  rintro after range hmore ⟨args, hargs⟩
  have hthere := (hcallee.grows hgrows).grows hmore
  refine (quiet_spanOf hthere.hasExpr).andThen fun _ hplace => ?_
  obtain ⟨function, hfunction⟩ := hthere
  exact builds_addExpr (zone.merge hplace hspan)
    ⟨.call function args, callee, range, rfl, hfunction, hargs⟩

omit hgrammar in
/-- A position that is a member is a literal that is not negative, or zero. -/
theorem builds_member {receiver : ExprId}
    (hreceiver : base.ShowsExpr receiver) :
    Builds zone loops base (member receiver) Program.ShowsExpr := by
  apply Builds.within _
  apply quiet_advance.andThen
  intro _ _
  apply quiet_lookToken.andThen
  intro token htoken
  dsimp only
  split
  · exact builds_fault nofun
  · next key hkey =>
      have hspelled : key.Spelled := by
        split at hkey
        · cases hkey; trivial
        · cases hkey
          split
          · next hnonneg => exact spelled_index hnonneg
          · exact Nat.zero_le _
        · cases hkey
      refine quiet_advance.andThen fun _ _ =>
        (quiet_spanOf hreceiver.hasExpr).andThen fun _ hplace => ?_
      obtain ⟨tree, htree⟩ := hreceiver
      exact builds_addExpr (zone.merge hplace htoken)
        ⟨.member tree ⟨key, hspelled⟩, receiver, rfl, htree⟩

theorem builds_index {receiver : ExprId}
    (hreceiver : base.ShowsExpr receiver) :
    Builds zone loops base (index grammar receiver) Program.ShowsExpr := by
  apply Builds.within _
  apply quiet_span.andThen
  intro place hplace
  apply (quiet_advance.andThen fun _ _ =>
    builds_expr hgrammar).inRegion false |>.bind
  rintro program key hgrows ⟨position, hposition⟩
  apply (quiet_look _).andThen
  intro closed _
  split
  · apply quiet_advance.andThen
    intro last hlast
    have hthere := hreceiver.grows hgrows
    refine (quiet_spanOf hthere.hasExpr).andThen fun _ hspan => ?_
    obtain ⟨tree, htree⟩ := hthere
    exact builds_addExpr (zone.merge hspan hlast)
      ⟨.index tree position, receiver, key, rfl, htree, hposition⟩
  · exact builds_listFault hplace

/-- What the suffixes so far are of reads as a tree. -/
theorem builds_postfixFrom (rounds : Nat) {expr : ExprId}
    (hexpr : base.ShowsExpr expr) :
    Builds zone loops base (postfixFrom grammar rounds expr)
      Program.ShowsExpr := by
  induction rounds generalizing base expr with
  | zero => exact builds_exhausted
  | succ rounds ih =>
      apply (quiet_look _).andThen
      intro found _
      split
      · exact (builds_call hgrammar hexpr).bind fun _ _ _ hnext => ih hnext
      · exact (builds_member hexpr).bind fun _ _ _ hnext => ih hnext
      · exact (builds_index hgrammar hexpr).bind fun _ _ _ hnext => ih hnext
      · exact builds_pure fun _ hgrows => hexpr.grows hgrows

theorem builds_postfixExpr :
    Builds zone loops base (postfixExpr grammar) Program.ShowsExpr :=
  (builds_atom hgrammar).bind fun _ _ _ hfirst =>
    (quiet_look _).andThen fun rounds _ =>
      builds_postfixFrom hgrammar rounds hfirst

omit hgrammar in
theorem builds_addUnary (op : UnaryOp) {start : Span} (hstart : zone.Has start)
    {operand : ExprId} (hoperand : base.ShowsExpr operand) :
    Builds zone loops base (addUnary op start operand) Program.ShowsExpr := by
  refine (quiet_spanOf hoperand.hasExpr).andThen fun _ hspan => ?_
  obtain ⟨tree, htree⟩ := hoperand
  exact builds_addExpr (zone.merge hstart hspan)
    ⟨.unary op tree, operand, rfl, htree⟩

theorem builds_signExpr :
    Builds zone loops base (signExpr grammar) Program.ShowsExpr := by
  apply (quiet_look _).andThen
  intro found _
  split
  · exact builds_postfixExpr hgrammar
  · apply quiet_advance.andThen
    intro start hstart
    exact (hgrammar .signExpr loops base).bind fun _ _ _ hoperand =>
      builds_addUnary _ hstart hoperand

theorem builds_composeExpr :
    Builds zone loops base (composeExpr grammar) Program.ShowsExpr := by
  apply builds_chain joins_composeJoiner
  intro base
  apply builds_chain (joins_binaryJoiner _)
  intro base
  exact builds_chain (joins_binaryJoiner _) fun base =>
    builds_signExpr hgrammar

/-- A second comparison is an error, so there is one tree at most. -/
theorem builds_relationExpr :
    Builds zone loops base (relationExpr grammar) Program.ShowsExpr := by
  apply (builds_composeExpr hgrammar).bind
  intro program left _ hleft
  apply (quiet_look _).andThen
  intro found _
  split
  · exact builds_pure fun _ hgrows => hleft.grows hgrows
  · next op _ =>
      apply quiet_advance.andThen
      intro _ _
      apply (builds_composeExpr hgrammar).bind
      rintro after right hgrows hright
      apply (quiet_look _).andThen
      intro next _
      split
      · exact builds_fault nofun
      · have hleft := hleft.grows hgrows
        refine builds_addJoined hleft hright ?_
        obtain ⟨one, hone⟩ := hleft
        obtain ⟨other, hother⟩ := hright
        exact ⟨.binary op one other, left, right, rfl, hone, hother⟩

theorem builds_notExpr :
    Builds zone loops base (notExpr grammar) Program.ShowsExpr := by
  apply (quiet_look _).andThen
  intro negated _
  split
  · apply quiet_advance.andThen
    intro start hstart
    exact (hgrammar .notExpr loops base).bind fun _ _ _ hoperand =>
      builds_addUnary _ hstart hoperand
  · exact builds_relationExpr hgrammar

theorem builds_orExpr :
    Builds zone loops base (orExpr grammar) Program.ShowsExpr := by
  apply builds_chain (joins_binaryJoiner _)
  intro base
  exact builds_chain (joins_binaryJoiner _) fun base => builds_notExpr hgrammar

omit hgrammar in
/-- The key of an assigned expression stands in the expression. -/
theorem spelled_target? {left : ExprId} {target : Expr} {key : Key}
    {program : Program} (hleft : program.ShowsExpr left)
    (htarget : program.expr? left = some target)
    (hkey : target? target.kind = some key) : key.Spelled := by
  obtain ⟨tree, _, hrow, hat⟩ := hleft
  cases htarget.symm.trans hrow
  cases tree with
  | ident name => rw [hat] at hkey; cases hkey; trivial
  | badge written => rw [hat] at hkey; cases hkey; exact written.spelled
  | null | bool | int | float | str => rw [hat] at hkey; cases hkey
  | member | unary | assign | array | args | func =>
      obtain ⟨_, hkind, _⟩ := hat
      rw [hkind] at hkey
      cases hkey
  | index | binary | compose | call =>
      obtain ⟨_, _, hkind, _⟩ := hat
      rw [hkind] at hkey
      cases hkey

/-- The target is read back off the tables, as the row that the left side has
become. -/
theorem builds_assignExpr :
    Builds zone loops base (assignExpr grammar) Program.ShowsExpr := by
  apply (builds_orExpr hgrammar).bind
  intro program left _ hleft
  apply (quiet_look _).andThen
  intro assigns _
  split
  · obtain ⟨row, htarget⟩ := hleft.hasExpr
    apply (quiet_expr htarget).andThen
    rintro _ ⟨rfl, hplace⟩
    split
    · exact builds_faultAt hplace nofun
    · next key hkey =>
        have hspelled := spelled_target? hleft htarget hkey
        apply quiet_advance.andThen
        intro _ _
        apply (builds_expr hgrammar).bind
        intro last value _ hvalue
        refine (quiet_spanOf hvalue.hasExpr).andThen fun _ hspan => ?_
        obtain ⟨tree, htree⟩ := hvalue
        exact builds_addExpr (zone.merge hplace hspan)
          ⟨.assign ⟨key, hspelled⟩ tree, value, rfl, htree⟩
  · exact builds_pure fun _ hgrows => hleft.grows hgrows

theorem builds_optionalExpr :
    Builds zone loops base (optionalExpr grammar) fun program value =>
      program.Shows .optional value := by
  apply (quiet_look _).andThen
  intro found _
  split
  · exact builds_pure fun _ _ => ⟨.absent, rfl⟩
  · apply (builds_expr hgrammar).bind
    intro program value _ hvalue
    apply builds_pure
    intro _ hgrows
    obtain ⟨tree, htree⟩ := hvalue.grows hgrows
    exact ⟨.present tree, value, rfl, htree⟩

omit hgrammar in
/-- Where a loop is left, there is a loop. -/
theorem builds_loopExit {form : StmtKind}
    (hform : ∀ program : Program, program.Shows (.stmt true) form) :
    Builds zone loops base (loopExit form) fun program form =>
      program.Shows (.stmt loops) form := by
  have hfault : Builds zone loops base (fault .outsideLoop)
      fun program form => program.Shows (.stmt loops) form :=
    builds_fault fun _ => List.forall_mem_nil _
  have hexit : Builds zone true base
      (do
        let _ ← advance
        return form) fun program form => program.Shows (.stmt true) form :=
    quiet_advance.andThen fun _ _ => builds_pure fun _ _ => hform _
  intro state hloops hgrows hinside
  unfold loopExit
  simp only [bind_apply, read_apply]
  split
  · exact hfault state hloops hgrows hinside
  · next hdepth =>
      obtain rfl : true = loops := hloops ▸ (bne_iff_ne.mpr hdepth).symm
      exact hexit state hloops hgrows hinside

/-- Only what leaves a loop depends on the loops around it. -/
theorem builds_smallStatement :
    Builds zone loops base (smallStatement grammar) fun program form =>
      program.Shows (.stmt loops) form := by
  apply (quiet_look _).andThen
  intro found _
  split
  · apply quiet_advance.andThen
    intro _ _
    apply (builds_optionalExpr hgrammar).bind
    intro _ value _ hvalue
    apply builds_pure
    intro _ hgrows
    obtain ⟨tree, htree⟩ := hvalue.grows hgrows
    exact ⟨.return tree, value, rfl, htree⟩
  · apply quiet_advance.andThen
    intro _ _
    apply (builds_optionalExpr hgrammar).bind
    intro _ value _ hvalue
    apply builds_pure
    intro _ hgrows
    obtain ⟨tree, htree⟩ := hvalue.grows hgrows
    exact ⟨.raise tree, value, rfl, htree⟩
  · exact builds_loopExit fun _ => ⟨.break, rfl⟩
  · exact builds_loopExit fun _ => ⟨.continue, rfl⟩
  · apply (builds_assignExpr hgrammar).bind
    intro _ value _ hvalue
    apply builds_pure
    intro _ hgrows
    obtain ⟨tree, htree⟩ := hvalue.grows hgrows
    exact ⟨.expr tree, value, rfl, htree⟩

omit hgrammar in
/-- The block of a further condition holds that statement alone. -/
theorem builds_branchBlock {form : StmtKind} {span : Span}
    (hspan : zone.Has span) (hform : base.Shows (.stmt loops) form) :
    Builds zone loops base (branchBlock form span) fun program block =>
      program.ShowsStmts loops block.stmts := by
  apply (builds_addStmt hspan hform).bind
  rintro program stmt _ ⟨tree, hstmt⟩
  apply (builds_addStmtList ⟨.next tree .done, stmt, [], rfl, hstmt, rfl⟩).bind
  intro after range _ hrange
  exact builds_pure fun _ hgrows => hrange.grows hgrows

omit hgrammar in
theorem quiet_eatContinuation (word : Keyword) :
    Quiet zone base (eatContinuation word) fun _ => True := by
  apply (quiet_look _).bind
  intro kind _
  split
  · exact quiet_skipNewlines.bind fun _ _ => quiet_advance.bind fun _ _ =>
      quiet_pure trivial
  · exact quiet_pure trivial

/-- A further condition, a block or nothing. -/
theorem builds_otherBranch :
    Builds zone loops base (otherBranch grammar) fun program other =>
      program.Shows (.other loops) other := by
  apply (quiet_look _).andThen
  intro found _
  split
  · apply quiet_skipNewlines.andThen
    intro _ _
    apply quiet_span.andThen
    intro start hstart
    apply (hgrammar .branch loops base).bind
    intro program nested _ hnested
    apply quiet_previousSpan.andThen
    intro last hlast
    apply (builds_branchBlock (zone.merge hstart hlast) hnested).bind
    intro after block _ hblock
    apply builds_pure
    intro _ hgrows
    obtain ⟨tree, htree⟩ := hblock.grows hgrows
    exact ⟨.otherwise tree, block, rfl, htree⟩
  · apply (quiet_eatContinuation _).andThen
    intro other _
    split
    · apply (builds_block hgrammar).bind
      intro program block _ hblock
      apply builds_pure
      intro _ hgrows
      obtain ⟨tree, htree⟩ := hblock.grows hgrows
      exact ⟨.otherwise tree, block, rfl, htree⟩
    · exact builds_pure fun _ _ => ⟨.noOther, rfl⟩

theorem builds_branch :
    Builds zone loops base (branch grammar) fun program form =>
      program.Shows (.stmt loops) form := by
  apply quiet_advance.andThen
  intro _ _
  apply (builds_assignExpr hgrammar).bind
  intro first condition _ hcondition
  apply (builds_block hgrammar).bind
  intro second block hgrows hblock
  apply (builds_otherBranch hgrammar).bind
  intro third other hmore hother
  apply builds_pure
  intro _ hlast
  obtain ⟨one, hone⟩ := ((hcondition.grows hgrows).grows hmore).grows hlast
  obtain ⟨two, htwo⟩ := (hblock.grows hmore).grows hlast
  obtain ⟨three, hthree⟩ := hother.grows hlast
  exact ⟨.branch one two three, condition, block, other, rfl, hone, htwo,
    hthree⟩

omit hgrammar in
theorem quiet_loopVariables :
    Quiet zone base loopVariables fun _ => True := by
  apply quiet_expectIdent.bind
  intro first _
  apply (quiet_eat _).bind
  intro comma _
  split
  · exact quiet_expectIdent.bind fun _ _ => quiet_pure trivial
  · exact quiet_pure trivial

/-- In the body there is a loop. -/
theorem builds_loop :
    Builds zone loops base (loop grammar) fun program form =>
      program.Shows (.stmt loops) form := by
  apply quiet_advance.andThen
  intro _ _
  apply quiet_loopVariables.andThen
  rintro ⟨key, value⟩ _
  apply (quiet_expect _).andThen
  intro _ _
  apply (builds_assignExpr hgrammar).bind
  intro first iterated _ hiterated
  apply (builds_block hgrammar).inLoop.bind
  intro second body hgrows hbody
  apply builds_pure
  intro _ hmore
  obtain ⟨one, hone⟩ := (hiterated.grows hgrows).grows hmore
  obtain ⟨two, htwo⟩ := hbody.grows hmore
  exact ⟨.loop key value one two, iterated, body, rfl, hone, htwo⟩

omit hgrammar in
theorem quiet_namesFrom (rounds : Nat) :
    Quiet zone base (namesFrom rounds) fun _ => True := by
  induction rounds with
  | zero => exact quiet_exhausted
  | succ rounds ih =>
      apply (quiet_eat _).bind
      intro comma _
      split
      · exact quiet_expectIdent.bind fun _ _ => ih.bind fun _ _ =>
          quiet_pure trivial
      · exact quiet_pure trivial

omit hgrammar in
/-- The names of fault kinds fill a row. Without any, the clause is for all
faults. -/
theorem builds_catchHead :
    Builds zone loops base catchHead fun program found =>
      ∃ head : CatchHead, found.1 = head.binding ∧
        program.names? found.2 = some head.kinds := by
  apply (quiet_look _).andThen
  intro ident _
  split
  · apply builds_noNames.bind
    intro _ _ _ hnames
    exact builds_pure fun _ hgrows => ⟨.all, rfl, hgrows.names? hnames⟩
  · apply quiet_span.andThen
    intro place hplace
    apply quiet_expectIdent.andThen
    intro first _
    apply (quiet_look _).andThen
    intro rounds _
    apply (quiet_namesFrom rounds).andThen
    intro others _
    apply (quiet_eat _).andThen
    intro binds _
    split
    · apply quiet_expectIdent.andThen
      intro binding _
      apply (builds_addNames _).bind
      intro _ _ _ hnames
      exact builds_pure fun _ hgrows =>
        ⟨.only first others binding, rfl, hgrows.names? hnames⟩
    · split
      · split
        · exact builds_faultAt hplace nofun
        · next hname =>
            apply builds_noNames.bind
            intro _ _ _ hnames
            exact builds_pure fun _ hgrows =>
              ⟨.bind first (Bool.eq_false_iff.mpr hname), rfl,
                hgrows.names? hnames⟩
      · exact builds_fault nofun

theorem builds_catchClause :
    Builds zone loops base (catchClause grammar) fun program clause =>
      (∃ head : CatchHead, clause.binding = head.binding ∧
        program.names? clause.kinds = some head.kinds) ∧
      program.ShowsStmts loops clause.body.stmts := by
  apply builds_catchHead.bind
  rintro first ⟨binding, kinds⟩ _ ⟨head, hbinding, hkinds⟩
  apply (builds_block hgrammar).bind
  intro second body hgrows hbody
  exact builds_pure fun _ hmore =>
    ⟨⟨head, hbinding, hmore.names? (hgrows.names? hkinds)⟩,
      hbody.grows hmore⟩

theorem builds_attempt :
    Builds zone loops base (attempt grammar) fun program form =>
      program.Shows (.stmt loops) form := by
  apply quiet_advance.andThen
  intro _ _
  apply (builds_block hgrammar).bind
  intro first body _ hbody
  apply (quiet_eatContinuation _).andThen
  intro recovers _
  split
  · apply ((builds_catchClause hgrammar).within _).bind
    rintro second clause hgrows ⟨⟨head, hbinding, hkinds⟩, hclause⟩
    apply builds_pure
    intro _ hmore
    obtain ⟨one, hone⟩ := (hbody.grows hgrows).grows hmore
    obtain ⟨two, htwo⟩ := hclause.grows hmore
    exact ⟨.attempt one head two, body, clause, rfl, hone, hbinding,
      hmore.names? hkinds, htwo⟩
  · exact builds_fault nofun

/-- The name comes with no row. -/
theorem builds_resource :
    Builds zone loops base (resource grammar) fun program form =>
      program.Shows (.stmt loops) form := by
  apply quiet_advance.andThen
  intro _ _
  apply (builds_assignExpr hgrammar).bind
  intro first acquired _ hacquired
  apply (quiet_eat _).andThen
  intro named _
  have hrest : ∀ binding : Option String, True → Builds zone loops first
      (do return .resource acquired binding (← grammar .block))
      fun program form => Program.Shows program (.stmt loops) form := by
    intro binding _
    apply (builds_block hgrammar).bind
    intro second body hgrows hbody
    apply builds_pure
    intro _ hmore
    obtain ⟨one, hone⟩ := (hacquired.grows hgrows).grows hmore
    obtain ⟨two, htwo⟩ := hbody.grows hmore
    exact ⟨.resource one binding two, acquired, body, rfl, hone, htwo⟩
  split
  · exact Quiet.andThen (quiet_expectIdent.bind fun _ _ => quiet_pure trivial)
      hrest
  · exact (quiet_pure trivial).andThen hrest

theorem builds_funcBlock :
    Builds zone loops base (funcBlock grammar) fun program form =>
      program.Shows (.stmt loops) form := by
  apply quiet_advance.andThen
  intro start _
  apply quiet_expectIdent.andThen
  intro name _
  apply (builds_functionRest hgrammar _ _).bind
  intro _ id _ hfunc
  apply builds_pure
  intro _ hgrows
  obtain ⟨params, body, hfunc⟩ := hfunc.grows hgrows
  exact ⟨.funcBlock name params body, id, rfl, hfunc⟩

theorem builds_inheritBlock :
    Builds zone loops base (inheritBlock grammar) fun program form =>
      program.Shows (.stmt loops) form := by
  apply quiet_advance.andThen
  intro _ _
  apply quiet_expectIdent.andThen
  intro name _
  apply (quiet_expect _).andThen
  intro _ _
  apply quiet_expectIdent.andThen
  intro parent _
  apply (builds_block hgrammar).bind
  intro _ body _ hbody
  apply builds_pure
  intro _ hgrows
  obtain ⟨tree, htree⟩ := hbody.grows hgrows
  exact ⟨.inheritBlock name parent tree, body, rfl, htree⟩

theorem builds_assignBlock (name : String) :
    Builds zone loops base (assignBlock grammar name) fun program form =>
      program.Shows (.stmt loops) form := by
  refine quiet_advance.andThen fun _ _ => quiet_advance.andThen fun _ _ => ?_
  apply (builds_block hgrammar).bind
  intro _ body _ hbody
  apply builds_pure
  intro _ hgrows
  obtain ⟨tree, htree⟩ := hbody.grows hgrows
  exact ⟨.assignBlock name tree, body, rfl, htree⟩

theorem builds_doBlock :
    Builds zone loops base (doBlock grammar) fun program form =>
      program.Shows (.stmt loops) form := by
  apply quiet_advance.andThen
  intro _ _
  apply (builds_block hgrammar).bind
  intro _ body _ hbody
  apply builds_pure
  intro _ hgrows
  obtain ⟨tree, htree⟩ := hbody.grows hgrows
  exact ⟨.scope tree, body, rfl, htree⟩

theorem builds_statementForm :
    Builds zone loops base (statementForm grammar) fun program form =>
      program.Shows (.stmt loops) form := by
  apply (quiet_look _).andThen
  intro cursor _
  split
  · exact (builds_branch hgrammar).within _
  · exact (builds_doBlock hgrammar).within _
  · exact (builds_loop hgrammar).within _
  · exact (builds_attempt hgrammar).within _
  · exact (builds_resource hgrammar).within _
  · exact (builds_inheritBlock hgrammar).within _
  · split
    · exact (builds_funcBlock hgrammar).within _
    · exact builds_smallStatement hgrammar
  · split
    · exact (builds_assignBlock hgrammar _).within _
    · exact builds_smallStatement hgrammar
  · exact builds_smallStatement hgrammar

omit hgrammar in
theorem quiet_statementEnd :
    Quiet zone base statementEnd fun _ => True := by
  apply (quiet_look _).bind
  intro kind _
  split
  · exact quiet_advance.bind fun _ _ => quiet_pure trivial
  · exact quiet_advance.bind fun _ _ => quiet_pure trivial
  · exact quiet_pure trivial
  · exact quiet_pure trivial
  · exact quiet_fault nofun

theorem builds_statement :
    Builds zone loops base (statement grammar)
      (Program.ShowsStmt · loops) := by
  apply quiet_span.andThen
  intro start hstart
  apply (builds_statementForm hgrammar).bind
  intro program form _ hform
  apply quiet_previousSpan.andThen
  intro last hlast
  apply (builds_addStmt (zone.merge hstart hlast) hform).bind
  intro after stmt _ hstmt
  exact quiet_statementEnd.andThen fun _ _ =>
    builds_pure fun _ hgrows => hstmt.grows hgrows

/-- The statements so far are good still when the rows of the others are there.
-/
theorem builds_statementsFrom (stop : TokenKind) (rounds : Nat) :
    Builds zone loops base (statementsFrom grammar stop rounds)
      fun program ids => program.Shows (.stmts loops) ids := by
  induction rounds generalizing base with
  | zero => exact builds_exhausted
  | succ rounds ih =>
      apply quiet_skipNewlines.andThen
      intro _ _
      apply (quiet_look _).andThen
      intro stops _
      apply (quiet_look _).andThen
      intro ends _
      split
      · exact builds_pure fun _ _ => ⟨.done, rfl⟩
      · apply (builds_statement hgrammar).bind
        intro first id _ hstmt
        apply ih.bind
        intro second others hgrows hothers
        apply builds_pure
        intro _ hmore
        obtain ⟨one, hone⟩ := (hstmt.grows hgrows).grows hmore
        obtain ⟨rest, hrest⟩ := hothers.grows hmore
        exact ⟨.next one rest, id, others, rfl, hone, hrest⟩

/-- The statements of a block are those between its braces, with the same loops
around them. -/
theorem builds_blockRule :
    Builds zone loops base (block grammar) fun program block =>
      program.ShowsStmts loops block.stmts := by
  apply Builds.within _
  apply (quiet_look _).andThen
  intro opens _
  split
  · apply quiet_span.andThen
    intro place hplace
    apply (quiet_advance.andThen fun _ _ =>
      (quiet_look _).andThen fun rounds _ =>
        builds_statementsFrom hgrammar _ rounds).inRegion true |>.bind
    intro program stmts _ hstmts
    apply (quiet_look _).andThen
    intro closes _
    split
    · apply quiet_advance.andThen
      intro last _
      apply (builds_addStmtList hstmts).bind
      intro _ _ _ hrange
      exact builds_pure fun _ hgrows => hrange.grows hgrows
    · refine builds_fault fun kind label hlabel => ?_
      rw [List.mem_singleton.mp hlabel]
      exact hplace
  · exact builds_fault nofun

theorem builds_script :
    Builds zone loops base (script grammar) fun program script =>
      program.ShowsStmts loops script.body := by
  apply Builds.within _
  apply (quiet_look _).andThen
  intro start _
  apply (quiet_look _).andThen
  intro rounds _
  apply (builds_statementsFrom hgrammar _ rounds).bind
  intro program stmts _ hstmts
  apply (quiet_look _).andThen
  intro last _
  apply (builds_addStmtList hstmts).bind
  intro _ _ _ hrange
  exact builds_pure fun _ hgrows => hrange.grows hgrows

end Parse

/-- The rules build programs to every depth. -/
theorem grammar_builds (zone : Zone) (depth : Nat) :
    (grammar depth).Builds zone := by
  induction depth with
  | zero => exact fun _ _ _ => Parse.builds_exhausted
  | succ depth ih =>
      intro rule loops base
      cases rule with
      | expr => exact Parse.builds_assignExpr ih
      | notExpr => exact Parse.builds_notExpr ih
      | signExpr => exact Parse.builds_signExpr ih
      | block => exact Parse.builds_blockRule ih
      | branch => exact Parse.builds_branch ih

section Running

variable {number : Nat} {tokens : List Token} {parsed : ParsedScript}

/-- Whether parsing succeeds or not, the places that are left in the tables or
reported in an error are those that tokens have or cover. -/
theorem runParser_builds {zone : Zone}
    (htokens : ∀ token ∈ tokens, zone.Has token.span) (number : Nat) :
    (ParserState.start number tokens).LeadsTo zone
        (runParser number tokens).2 ∧
      (runParser number tokens).1.Ends zone fun script =>
        (runParser number tokens).2.program.ShowsStmts false script.body :=
  Parse.builds_script (grammar_builds zone (tokens.length + 1)) _ rfl (.refl _)
    (.start htokens number)

/-- Without a bound on places the tables are built and what is left reads as a
tree. -/
theorem runParser_builds_everywhere (number : Nat) (tokens : List Token) :
    (ParserState.start number tokens).LeadsTo .everywhere
        (runParser number tokens).2 ∧
      (runParser number tokens).1.Ends .everywhere fun script =>
        (runParser number tokens).2.program.ShowsStmts false script.body :=
  runParser_builds (fun _ _ => trivial) number

/-- The tables that the parser leaves are built, whether parsing succeeds or
not, and have the number asked for. -/
theorem runParser_built (number : Nat) (tokens : List Token) :
    (runParser number tokens).2.program.Built ∧
      (runParser number tokens).2.program.number = number := by
  obtain ⟨hleads, -⟩ := runParser_builds_everywhere number tokens
  exact ⟨hleads.built (.empty number), hleads.grows.number⟩

/-- What is parsed comes from the tables that the parser leaves. -/
theorem runParser_of_parse (hparse : parse number tokens = .ok parsed) :
    (runParser number tokens).1 = .ok parsed.script ∧
      (runParser number tokens).2.program = parsed.program := by
  unfold parse at hparse
  rcases hrun : runParser number tokens with ⟨outcome, state⟩
  rw [hrun] at hparse
  cases outcome with
  | ok script => cases hparse; exact ⟨rfl, rfl⟩
  | error error => cases hparse
  | halted reason => cases hparse

/-- The statements of a parsed script read as a tree, with no loop around
them. -/
theorem parse_shows (hparse : parse number tokens = .ok parsed) :
    parsed.program.ShowsStmts false parsed.script.body := by
  obtain ⟨hscript, hprogram⟩ := runParser_of_parse hparse
  obtain ⟨-, hends⟩ := runParser_builds_everywhere number tokens
  rw [hscript, hprogram] at hends
  exact hends

/-- The statements of a parsed script are rows of its program, which has the
number asked for. -/
theorem parse_built (hparse : parse number tokens = .ok parsed) :
    parsed.program.Built ∧ parsed.program.number = number ∧
      parsed.program.HasStmts parsed.script.body := by
  obtain ⟨hbuilt, hnumber⟩ := runParser_built number tokens
  rw [(runParser_of_parse hparse).2] at hbuilt hnumber
  exact ⟨hbuilt, hnumber, (parse_shows hparse).hasStmts⟩

/-- If the tokens lie in a text, so do the places in the tables. -/
theorem parse_places_inText {chars : List Char}
    (htokens : ∀ token ∈ tokens, token.span.InText chars)
    (hparse : parse number tokens = .ok parsed) {span : Span}
    (hspan : parsed.program.Places span) : span.InText chars := by
  have hzone : ∀ token ∈ tokens, (Zone.text chars).Has token.span := htokens
  obtain ⟨hleads, -⟩ := runParser_builds hzone number
  have hinside := hleads.inside (.start hzone number)
  rw [← (runParser_of_parse hparse).2] at hspan
  exact hinside.rows span hspan

/-- The places that an error is about lie in the text, too. -/
theorem parse_error_inText {chars : List Char} {error : ParseError}
    (htokens : ∀ token ∈ tokens, token.span.InText chars)
    (hparse : parse number tokens = .error error) :
    ∀ label ∈ error.diagnostic.labels, label.span.InText chars := by
  have hzone : ∀ token ∈ tokens, (Zone.text chars).Has token.span := htokens
  obtain ⟨-, hends⟩ := runParser_builds hzone number
  rw [parse] at hparse
  rcases hrun : runParser number tokens with ⟨outcome, state⟩
  rw [hrun] at hparse hends
  cases outcome <;> cases hparse
  exact hends

end Running

end ChainScript
