import ChainScript.Proofs.Levels

/-
Lists of entries are read back from their texts, and so are groups.

The rules for lists of entries and parameters only ask that the expressions in
them are read back.  A group is a list of one entry without a comma after it,
which is why a list of arguments with a single entry is written with one.
-/

namespace ChainScript

open Parse
open TokenKind (ne_eof ne_newline)

/-- The rule for its own precedence reads the text of an expression. -/
def Tree.ReadsAlone (tree : Tree .expr) : Prop :=
  ∀ (depth : Nat) (setting : Setting) (base : Program) (more : List Token),
    (tree.write more).length ≤ depth + 1 →
    tree.precedence.Precedes (firstKind more) → setting.Settles more →
    Reaches tree.precedence (grammar depth) setting base (tree.write more) more
      tree

/-- The rule for all expressions reads the text of an expression. -/
def Tree.ReadsValue (tree : Tree .expr) : Prop :=
  ∀ (depth : Nat) (setting : Setting) (base : Program) (more : List Token),
    (tree.write more).length ≤ depth + 1 →
    (firstKind more).joint? = none → setting.Settles more →
    Accepts setting base (assignExpr (grammar depth)) (tree.write more) more
      tree.Stands

/-- The rule for each precedence reads the text of an expression as an
operand. -/
def Tree.ReadsOperand (tree : Tree .expr) : Prop :=
  ∀ (depth : Nat) (setting : Setting) (base : Program)
    (required : Precedence) (more : List Token),
    (tree.operand required more).length ≤ depth + 1 →
    required.Precedes (firstKind more) → setting.Settles more →
    Reaches required (grammar depth) setting base (tree.operand required more)
      more tree

/-- The rules for looser precedences read the expression too, if the token after
it ends it there. -/
theorem Tree.ReadsAlone.accepts {tree : Tree .expr} (htree : tree.ReadsAlone)
    {required : Precedence} (hrank : required.rank ≤ tree.precedence.rank)
    {depth : Nat} {setting : Setting} {base : Program} {more : List Token}
    (hlength : (tree.write more).length ≤ depth + 1)
    (hends : required.Ends (firstKind more)) (hsettles : setting.Settles more) :
    Accepts setting base (required.rule (grammar depth)) (tree.write more) more
      tree.Stands := by
  have hreaches := htree depth setting base more hlength
    (hends.mono hrank).precedes hsettles
  exact (hreaches.loosen hrank hends.precedes (tree.leads more)).accepts hends

theorem Tree.ReadsAlone.readsValue {tree : Tree .expr}
    (htree : tree.ReadsAlone) : tree.ReadsValue := by
  intro depth setting base more hlength hjoint hsettles
  have hends : Precedence.assign.Ends (firstKind more) :=
    Precedence.ends_of_joint? hjoint _
  exact htree.accepts (Nat.zero_le _) hlength hends hsettles

/-- A reference back to the rule for expressions. -/
theorem Tree.ReadsValue.expr {tree : Tree .expr} (htree : tree.ReadsValue)
    {depth : Nat} {setting : Setting} {base : Program} {more : List Token}
    (hlength : (tree.write more).length ≤ depth)
    (hjoint : (firstKind more).joint? = none)
    (hsettles : setting.Settles more) :
    Accepts setting base (grammar depth .expr) (tree.write more) more
      tree.Stands := by
  obtain _ | depth := depth
  · have hlonger := tree.longer_write more
    simp only [Longer, Category.least] at hlonger
    omega
  · exact htree depth setting base more hlength hjoint hsettles

/-- The literal of a position that can be spelled is not negative. -/
theorem nonneg_toInt64 {position : UInt64}
    (hspelled : Key.Spelled (.index position)) :
    0 ≤ position.toInt64.toInt := by
  have hlt : 2 * position.toBitVec.toNat < 2 ^ 64 := by
    have heq : position.toBitVec.toNat = position.toNat := rfl
    simp only [Key.Spelled, maxInteger] at hspelled
    omega
  change 0 ≤ position.toBitVec.toInt
  rw [BitVec.toInt_eq_toNat_of_lt hlt]
  exact Int.natCast_nonneg _

/-- A key that can be spelled is the one that its token spells. -/
theorem keyOf?_token {key : Key} (hspelled : key.Spelled) :
    keyOf? key.token = some key := by
  cases key with
  | badge label =>
      by_cases hname : isName label <;> simp [Key.token, hname, keyOf?]
  | index position => simp [Key.token, keyOf?, nonneg_toInt64 hspelled]

theorem settles_of_leads {required : Precedence}
    {setting : Setting} {tokens : List Token}
    (hleads : (firstKind tokens).Leads required) : setting.Settles tokens :=
  fun _ => hleads.ne rfl

/-- What comes after an entry: a comma or the end of the list. -/
def AfterEntry (tokens : List Token) : Prop :=
  firstKind tokens = .mark .comma ∨ firstKind tokens = .mark .closeParen ∨
    firstKind tokens = .mark .closeBracket

namespace AfterEntry

variable {tokens : List Token} (hafter : AfterEntry tokens)

include hafter

theorem joint? : (firstKind tokens).joint? = none := by
  rcases hafter with hkind | hkind | hkind <;> rw [hkind] <;> rfl

theorem ne_newline : firstKind tokens ≠ .newline := by
  rcases hafter with hkind | hkind | hkind <;> rw [hkind] <;> decide

theorem ne_colon : firstKind tokens ≠ .mark .colon := by
  rcases hafter with hkind | hkind | hkind <;> rw [hkind] <;> decide

end AfterEntry

section Entry

variable {depth : Nat} {setting : Setting} {base : Program}
  {more : List Token} {value : Tree .expr}

/-- A plain entry is not taken for one with a key. -/
theorem peek_ne_colon {key : Key} (hafter : AfterEntry more)
    (hkey : keyOf? (firstKind (value.write more)) = some key) :
    Cursor.peekIn setting.newlinesCount 1 (value.write more) ≠
      .mark .colon := by
  have hopening := value.opening more
  generalize value.write more = tokens at hopening hkey
  have hkind : ∀ {kind : TokenKind}, keyOf? kind = some key →
      kind ≠ .newline ∧ kind ≠ .eof := by
    rintro kind hsome
    constructor <;> rintro rfl <;> cases hsome
  cases hopening with
  | other hnone => exact nomatch hnone.symm.trans hkey
  | func tokens => cases hkey
  | alone kind =>
      rw [Cursor.peekIn_one (hkind hkey).1 (hkind hkey).2
        fun _ => hafter.ne_newline]
      exact hafter.ne_colon
  | @joined kind joint tokens _ hjoint =>
      rw [Cursor.peekIn_one (hkind hkey).1 (hkind hkey).2]
      · rintro ⟨⟩
        cases hjoint
      · rintro _ ⟨⟩
        cases hjoint

theorem accepts_item (hvalue : value.ReadsValue)
    (hlength : (value.write more).length ≤ depth) (hafter : AfterEntry more) :
    Accepts setting base (entry (grammar depth)) (value.write more) more
      fun program entry => (Tree.item value .noEntries).At program [entry] := by
  apply (passes_place _).andThen
  intro start _
  apply (passes_uneaten (TokenKind.sameVariant_mark
    ((value.leads more).ne rfl))).andThen
  rintro _ rfl
  simp only [Bool.false_eq_true, if_false]
  apply passes_kind.andThen
  rintro _ rfl
  apply (passes_peek 1).andThen
  rintro _ rfl
  split
  · next key hkey hcolon => exact absurd hcolon (peek_ne_colon hafter hkey)
  · apply (hvalue.expr hlength hafter.joint? fun _ => hafter.ne_newline).bind
    intro program id _ hstands
    apply Continues.spanOf hstands.hasExpr
    intro span
    exact accepts_pure fun _ hgrows =>
      ⟨id, span, [], rfl, hstands.grows hgrows, rfl⟩

theorem accepts_keyed {key : WrittenKey} (hvalue : value.ReadsValue)
    (hlength : (value.write more).length ≤ depth) (hafter : AfterEntry more) :
    Accepts setting base (entry (grammar depth))
      (.of key.key.token :: .of (.mark .colon) :: value.write more) more
      fun program entry =>
        (Tree.keyed key value .noEntries).At program [entry] := by
  have hkey := keyOf?_token key.spelled
  have hlead := key.key.lead?_token
  have hkind : ∀ {other : TokenKind}, other.lead? = none →
      key.key.token ≠ other :=
    (TokenKind.leads_of_suffix hlead .suffix).ne
  have hcolon : Cursor.peekIn setting.newlinesCount 1
      (.of key.key.token :: .of (.mark .colon) :: value.write more) =
        .mark .colon :=
    Cursor.peekIn_one (hkind rfl) (hkind rfl) fun _ => ne_newline rfl
  apply (passes_place _).andThen
  intro start _
  refine Passes.andThen
    (passes_uneaten (TokenKind.sameVariant_mark (hkind rfl))) ?_
  rintro _ rfl
  simp only [Bool.false_eq_true, if_false]
  apply passes_kind.andThen
  rintro _ rfl
  apply (passes_peek 1).andThen
  rintro _ rfl
  rw [firstKind_cons, Token.kind_of, hkey, hcolon]
  refine Passes.andThen (passes_advance (hkind rfl) fun _ => ne_newline rfl) ?_
  rintro _ _
  refine Passes.andThen
    (passes_advance (ne_eof rfl) (settles_of_leads (value.leads more))) ?_
  rintro _ _
  apply (hvalue.expr hlength hafter.joint? fun _ => hafter.ne_newline).bind
  intro program id _ hstands
  apply Continues.spanOf hstands.hasExpr
  intro span
  exact accepts_pure fun _ hgrows =>
    ⟨id, _, [], rfl, hstands.grows hgrows, rfl⟩

theorem accepts_expand {name : String} (hafter : AfterEntry more) :
    Accepts setting base (entry (grammar depth))
      (.of (.mark .ellipsis) :: .of (.ident name) :: more) more
      fun program entry => (Tree.expand name .noEntries).At program [entry] := by
  apply (passes_place _).andThen
  intro start _
  refine Passes.andThen (passes_eat rfl (ne_eof rfl) fun _ => ne_newline rfl) ?_
  rintro _ rfl
  simp only [if_true]
  apply (passes_expectIdent rfl fun _ => hafter.ne_newline).andThen
  rintro _ rfl
  apply (passes_place _).andThen
  intro last _
  exact accepts_pure fun _ _ => ⟨_, [], rfl, rfl⟩

end Entry

/-- The end of a list, with a comma in front if one is asked for. -/
def closing (comma : Bool) (close : Mark) (more : List Token) : List Token :=
  preceded comma (.mark .comma) (.of (.mark close) :: more)

/-- The mark ends a list of entries. -/
def Mark.Closes (close : Mark) : Prop :=
  close = .closeParen ∨ close = .closeBracket

/-- The rule for entries reads the text of a list up to its end.  Whether a
comma comes last is told by the end, or by the flag given if the list is
empty. -/
def Tree.ReadsEntries (entries : Tree .entries) : Prop :=
  ∀ (depth : Nat) (setting : Setting) (base : Program) (opener : TokenKind)
    (place : Span) (close : Mark) (more : List Token) (last comma : Bool)
    (rounds : Nat),
    close.Closes → (entries.isEmpty = true → last = false) →
    (entries.write (closing last close more)).length ≤ depth →
    (entries.write (closing last close more)).length < rounds →
    Accepts setting base
      (entriesFrom (grammar depth) opener place (.mark close) rounds comma)
      (entries.write (closing last close more)) (.of (.mark close) :: more)
      fun program result => entries.At program result.1 ∧
        result.2 = if entries.isEmpty then comma else last

section Entries

variable {depth : Nat} {setting : Setting} {base : Program}
  {close : Mark} {before more : List Token} {last : Bool}
  {one others tree : Tree .entries}

theorem Tree.eq_noEntries {entries : Tree .entries}
    (hempty : entries.isEmpty = true) : entries = .noEntries := by
  cases entries <;> first | rfl | cases hempty

theorem Tree.not_isSingle (entries : Tree .entries)
    (hempty : entries.isEmpty = true) : entries.isSingle = false := by
  rw [eq_noEntries hempty]
  rfl

/-- An entry does not start with the end of a list. -/
theorem Mark.Closes.lead? (hclose : close.Closes) :
    (TokenKind.mark close).lead? = none := by
  rcases hclose with rfl | rfl <;> rfl

theorem Mark.Closes.afterEntry (hclose : close.Closes) (last : Bool)
    (more : List Token) : AfterEntry (closing last close more) := by
  cases last with
  | true => exact .inl rfl
  | false => rcases hclose with rfl | rfl <;> simp [closing, preceded, AfterEntry]

theorem Mark.Closes.afterEntry_preceded (hclose : close.Closes)
    (others : Tree .entries) (last : Bool) (more : List Token) :
    AfterEntry (preceded (!others.isEmpty) (.mark .comma)
      (others.write (closing last close more))) := by
  cases hempty : others.isEmpty with
  | true =>
      rw [Tree.eq_noEntries hempty]
      exact hclose.afterEntry last more
  | false => exact .inl rfl

/-- A list of entries does not start with a line feed. -/
theorem Tree.entries_ne_newline (entries : Tree .entries) {more : List Token}
    (hmore : firstKind more ≠ .newline) :
    firstKind (entries.write more) ≠ .newline := by
  cases entries with
  | noEntries => exact hmore
  | item value => exact (value.leads _).ne rfl
  | keyed key value =>
      exact (TokenKind.leads_of_suffix key.key.lead?_token .suffix).ne rfl
  | expand name => exact ne_newline rfl

/-- After an entry there is a comma if more entries come or the end asks for
one. -/
theorem passes_comma (hclose : close.Closes) :
    Passes setting (eat (.mark .comma))
      (preceded (!others.isEmpty) (.mark .comma)
        (others.write (closing last close more)))
      (others.write (closing (last && !others.isEmpty) close more))
      (· = (last || !others.isEmpty)) := by
  have hsettles : ∀ last, setting.Settles
      (others.write (closing last close more)) := fun last _ =>
    others.entries_ne_newline (hclose.afterEntry last more).ne_newline
  cases hempty : others.isEmpty with
  | true =>
      obtain rfl := Tree.eq_noEntries hempty
      cases last with
      | true => exact passes_eat rfl (ne_eof rfl) (hsettles false)
      | false =>
          apply passes_uneaten
          rcases hclose with rfl | rfl <;> rfl
  | false =>
      simp only [Bool.not_false, Bool.or_true, Bool.and_true]
      exact passes_eat rfl (ne_eof rfl) (hsettles last)

theorem longer_comma (close : Mark) (last : Bool) (others : Tree .entries)
    (more : List Token) :
    Longer 0 (others.write (closing (last && !others.isEmpty) close more))
      (preceded (!others.isEmpty) (.mark .comma)
        (others.write (closing last close more))) := by
  cases hempty : others.isEmpty with
  | true =>
      obtain rfl := Tree.eq_noEntries hempty
      rw [Bool.not_true, Bool.and_false]
      exact (longer_refl _).preceded last (.mark .comma)
  | false =>
      rw [Bool.not_false, Bool.and_true]
      exact (longer_refl _).preceded true (.mark .comma)

/-- Without a comma after an entry the end of the list comes. -/
theorem comma_or_close (close : Mark) (last : Bool) (others : Tree .entries)
    (more : List Token) :
    (!(last || !others.isEmpty) &&
      !(firstKind (others.write
        (closing (last && !others.isEmpty) close more))).sameVariant
          (.mark close)) = false := by
  cases hempty : others.isEmpty with
  | true =>
      obtain rfl := Tree.eq_noEntries hempty
      cases last with
      | true => rfl
      | false =>
          simp [Tree.write, closing, preceded, TokenKind.sameVariant]
  | false => simp

/-- A first entry, and then the others. -/
theorem accepts_entriesFrom_cons
    (hentry : Accepts setting base (entry (grammar depth)) before
      (preceded (!others.isEmpty) (.mark .comma)
        (others.write (closing last close more)))
      fun program entry => one.At program [entry])
    (hat : ∀ {program : Program} {first : Entry} {rest : List Entry},
      one.At program [first] → others.At program rest →
        tree.At program (first :: rest))
    (hothers : others.ReadsEntries) (hclose : close.Closes)
    (hstart : firstKind before ≠ .mark close)
    (hlonger : Longer 1 (preceded (!others.isEmpty) (.mark .comma)
      (others.write (closing last close more))) before)
    (hdepth : before.length ≤ depth) (opener : TokenKind) (place : Span)
    {rounds : Nat} (hrounds : before.length < rounds) (comma : Bool) :
    Accepts setting base
      (entriesFrom (grammar depth) opener place (.mark close) rounds comma)
      before (.of (.mark close) :: more)
      fun program result => tree.At program result.1 ∧ result.2 = last := by
  obtain _ | rounds := rounds
  · cases hrounds
  have hshorter : (others.write
      (closing (last && !others.isEmpty) close more)).length <
        before.length :=
    Nat.lt_of_le_of_lt (longer_comma close last others more) hlonger
  apply (passes_check _).andThen
  rintro _ rfl
  simp only [TokenKind.sameVariant_mark hstart, Bool.false_eq_true, if_false]
  apply hentry.bind
  intro first entry _ hone
  apply (passes_comma hclose).andThen
  rintro _ rfl
  apply (passes_check _).andThen
  rintro _ rfl
  simp only [comma_or_close, Bool.false_eq_true, if_false]
  apply (hothers depth setting first opener place close more _ _ rounds hclose
    (by simp_all) (by omega) (by omega)).bind
  rintro second ⟨entries, comma⟩ hgrows ⟨hentries, hcomma⟩
  apply accepts_pure
  intro program hmore
  refine ⟨hat ((hone.grows hgrows).grows hmore) (hentries.grows hmore), ?_⟩
  cases hempty : others.isEmpty <;> simpa [hempty] using hcomma

theorem readsEntries_nil : Tree.noEntries.ReadsEntries := by
  intro depth setting base opener place close more last comma rounds _ hlast _
    hrounds
  obtain rfl := hlast rfl
  obtain _ | rounds := rounds
  · cases hrounds
  apply (passes_check _).andThen
  rintro _ rfl
  have hclosed : (firstKind (Tree.noEntries.write
      (closing false close more))).sameVariant (.mark close) = true := by
    simp [Tree.write, closing, preceded, TokenKind.sameVariant]
  simp only [hclosed, if_true]
  exact accepts_pure fun _ _ => ⟨rfl, rfl⟩

theorem readsEntries_item {value : Tree .expr} (hvalue : value.ReadsValue)
    (hothers : others.ReadsEntries) :
    (Tree.item value others).ReadsEntries := by
  intro depth setting base opener place close more last comma rounds hclose _
    hdepth hrounds
  refine accepts_entriesFrom_cons
    (accepts_item hvalue hdepth (hclose.afterEntry_preceded _ _ _)) ?_ hothers
    hclose ((value.leads _).ne hclose.lead?) (value.longer_write _) hdepth
    opener place hrounds comma
  rintro program first rest ⟨id, span, _, hrows, hstands, _⟩ hrest
  obtain ⟨rfl, _⟩ := List.cons.inj hrows
  exact ⟨id, span, rest, rfl, hstands, hrest⟩

theorem readsEntries_keyed {key : WrittenKey} {value : Tree .expr}
    (hvalue : value.ReadsValue) (hothers : others.ReadsEntries) :
    (Tree.keyed key value others).ReadsEntries := by
  intro depth setting base opener place close more last comma rounds hclose _
    hdepth hrounds
  have hvalueDepth := Nat.le_of_succ_le (Nat.le_of_succ_le hdepth)
  have hstart := (TokenKind.leads_of_suffix key.key.lead?_token .suffix).ne
    hclose.lead?
  refine accepts_entriesFrom_cons
    (accepts_keyed hvalue hvalueDepth (hclose.afterEntry_preceded _ _ _)) ?_
    hothers hclose hstart
    ((((value.longer_write _).cons _).cons _).weaken (by decide)) hdepth opener
    place hrounds comma
  rintro program first rest ⟨id, span, _, hrows, hstands, _⟩ hrest
  obtain ⟨rfl, _⟩ := List.cons.inj hrows
  exact ⟨id, span, rest, rfl, hstands, hrest⟩

theorem readsEntries_expand {name : String} (hothers : others.ReadsEntries) :
    (Tree.expand name others).ReadsEntries := by
  intro depth setting base opener place close more last comma rounds hclose _
    hdepth hrounds
  refine accepts_entriesFrom_cons
    (accepts_expand (hclose.afterEntry_preceded _ _ _)) ?_ hothers hclose ?_
    ((((longer_refl _).cons _).cons _).weaken (by decide)) hdepth opener place
    hrounds comma
  · rintro program first rest ⟨span, _, hrows, _⟩ hrest
    obtain ⟨rfl, _⟩ := List.cons.inj hrows
    exact ⟨span, rest, rfl, hrest⟩
  · rcases hclose with rfl | rfl <;> simp

/-- A list of entries between its delimiters. -/
theorem accepts_delimited {entries : Tree .entries}
    (hentries : entries.ReadsEntries) {opener : TokenKind}
    (hopener : opener ≠ .newline ∧ opener ≠ .eof) (hclose : close.Closes)
    (hlast : entries.isEmpty = true → last = false)
    (hdepth : (entries.write (closing last close more)).length ≤ depth)
    (hsettles : setting.Settles more) :
    Accepts setting base (delimited (grammar depth) opener (.mark close))
      (.of opener :: entries.write (closing last close more)) more
      fun program result => entries.At program result.1 ∧ result.2.1 = last := by
  apply (passes_place _).andThen
  intro place _
  have hregion : Accepts setting base
      (inRegion false do
        let _ ← advance
        entriesFrom (grammar depth) opener place (.mark close) (← rounds) false)
      (.of opener :: entries.write (closing last close more))
      (.of (.mark close) :: more)
      fun program result => entries.At program result.1 ∧ result.2 = last := by
    refine Accepts.inRegion ?_ fun _ => hopener.1
    refine Passes.andThen (passes_advance hopener.2 fun _ =>
      entries.entries_ne_newline (hclose.afterEntry last more).ne_newline) ?_
    rintro _ _
    apply passes_rounds.andThen
    rintro _ rfl
    refine Continues.mono (hentries depth _ base opener place close more last
      false _ hclose hlast hdepth (Nat.lt_succ_self _)) ?_
    rintro program ⟨rows, comma⟩ _ ⟨hat, hcomma⟩
    refine ⟨hat, ?_⟩
    cases hempty : entries.isEmpty with
    | true => simpa [hempty, hlast hempty] using hcomma
    | false => simpa [hempty] using hcomma
  apply hregion.bind
  rintro program ⟨rows, comma⟩ _ ⟨hat, rfl⟩
  refine Passes.andThen (passes_expect ?_ (ne_eof rfl) hsettles) ?_
  · exact (TokenKind.sameVariant_mark_iff _ _).mpr rfl
  · rintro final _
    exact accepts_pure fun _ hgrows => ⟨hat.grows hgrows, rfl⟩

/-- A single plain entry without a comma after it is the expression itself. -/
theorem accepts_group {value : Tree .expr} (hvalue : value.ReadsValue)
    (hdepth : (value.write (.of (.mark .closeParen) :: more)).length ≤ depth)
    (hsettles : setting.Settles more) :
    Accepts setting base (parenthesised (grammar depth))
      (.of (.mark .openParen) :: value.write (.of (.mark .closeParen) :: more))
      more value.Stands := by
  have hentries := readsEntries_item hvalue readsEntries_nil
  have hlist : Accepts setting base
      (delimited (grammar depth) (.mark .openParen) (.mark .closeParen))
      (.of (.mark .openParen) ::
        (Tree.item value .noEntries).write (closing false .closeParen more))
      more _ :=
    accepts_delimited hentries (by decide) (.inl rfl) (fun _ => rfl) hdepth
      hsettles
  apply (hlist.within _).bind
  rintro program ⟨rows, comma, span⟩ _ ⟨⟨id, place, rest, rfl, hstands, rfl⟩, rfl⟩
  exact accepts_pure fun _ hgrows => Tree.Stands.grows hstands hgrows

/-- A list of one row is the one of a single entry. -/
theorem isSingle_of_at {entries : Tree .entries} {program : Program}
    {row : Entry} (hat : entries.At program [row]) :
    entries.isSingle = true := by
  have hempty : ∀ {others : Tree .entries}, others.At program [] →
      others.isEmpty = true := by
    intro others hnone
    cases others <;> simp_all [Tree.At, Tree.isEmpty]
  cases entries with
  | noEntries => cases hat
  | item value others =>
      obtain ⟨_, _, rest, hrows, _, hrest⟩ := hat
      obtain ⟨_, rfl⟩ := List.cons.inj hrows
      exact hempty hrest
  | keyed key value others =>
      obtain ⟨_, _, rest, hrows, _, hrest⟩ := hat
      obtain ⟨_, rfl⟩ := List.cons.inj hrows
      exact hempty hrest
  | expand name others =>
      obtain ⟨_, rest, hrows, hrest⟩ := hat
      obtain ⟨_, rfl⟩ := List.cons.inj hrows
      exact hempty hrest

/-- Entries that are not a single one without a comma are arguments. -/
theorem accepts_arguments {entries : Tree .entries}
    (hentries : entries.ReadsEntries)
    (hdepth : (entries.write (closing entries.isSingle .closeParen
      more)).length ≤ depth) (hsettles : setting.Settles more) :
    Accepts setting base (parenthesised (grammar depth))
      (.of (.mark .openParen) ::
        entries.write (closing entries.isSingle .closeParen more)) more
      (Tree.args entries).Stands := by
  apply ((accepts_delimited hentries (by decide) (.inl rfl)
    entries.not_isSingle hdepth
    hsettles).within _).bind
  rintro program ⟨rows, comma, span⟩ _ ⟨hat, hcomma⟩
  dsimp only at hat hcomma ⊢
  split
  · exact nomatch hcomma.trans (isSingle_of_at hat)
  · apply (accepts_addEntries hat).bind
    intro after range _ hrange
    exact accepts_addExpr span ⟨range, rfl, hrange⟩

end Entries

/-- An expression that may be left out is read back if it is there. -/
def Tree.ReadsOptional (default : Tree .optional) : Prop :=
  ∀ value, default = .present value → value.ReadsValue

/-- The rule for parameters reads the text of a list up to its end. -/
def Tree.ReadsParams (params : Tree .params) : Prop :=
  ∀ (depth : Nat) (setting : Setting) (base : Program) (place : Span)
    (more : List Token) (rounds : Nat),
    (params.write (.of (.mark .closeParen) :: more)).length ≤ depth →
    (params.write (.of (.mark .closeParen) :: more)).length < rounds →
    Accepts setting base (paramsFrom (grammar depth) place rounds)
      (params.write (.of (.mark .closeParen) :: more))
      (.of (.mark .closeParen) :: more)
      fun program rows => params.At program rows

section Params

variable {depth : Nat} {setting : Setting} {base : Program}
  {more : List Token}

theorem readsParams_nil : Tree.noParams.ReadsParams := by
  intro depth setting base place more rounds _ hrounds
  obtain _ | rounds := rounds
  · cases hrounds
  apply (passes_check _).andThen
  rintro _ rfl
  exact accepts_pure fun _ _ => rfl

theorem readsParams_rest (name : String) : (Tree.rest name).ReadsParams := by
  intro depth setting base place more rounds _ hrounds
  obtain _ | _ | rounds := rounds
  · cases hrounds
  · exact absurd hrounds (by simp [Tree.write])
  have hparam : Accepts setting base (param (grammar depth))
      (.of (.mark .ellipsis) :: .of (.ident name) ::
        .of (.mark .closeParen) :: more) (.of (.mark .closeParen) :: more)
      fun _ param => ∃ span, param = ⟨name, none, true, span⟩ := by
    apply (passes_place _).andThen
    intro start _
    refine Passes.andThen
      (passes_eat rfl (ne_eof rfl) fun _ => ne_newline rfl) ?_
    rintro _ rfl
    refine Passes.andThen (passes_expectIdent rfl fun _ => ne_newline rfl) ?_
    rintro _ rfl
    apply (passes_pure rfl).andThen
    rintro _ rfl
    apply (passes_place _).andThen
    intro last _
    exact accepts_pure fun _ _ => ⟨_, rfl⟩
  apply (passes_check _).andThen
  rintro _ rfl
  apply hparam.bind
  rintro program _ _ ⟨span, rfl⟩
  apply (passes_check _).andThen
  rintro _ rfl
  refine Passes.andThen (passes_uneaten rfl) ?_
  rintro _ rfl
  rw [if_neg (by simp [TokenKind.sameVariant])]
  apply (readsParams_nil depth setting program place more (rounds + 1)
    (by simp [Tree.write] at *; omega) (by simp [Tree.write] at *; omega)).bind
  rintro _ _ _ rfl
  exact accepts_pure fun _ _ => ⟨span, rfl⟩

theorem accepts_default {default : Tree .optional}
    (hdefault : default.ReadsOptional) (hafter : AfterEntry more)
    (hdepth : (default.write more).length ≤ depth) :
    Accepts setting base (default? (grammar depth))
      (preceded (!default.isEmpty) (.mark .assign) (default.write more)) more
      fun program value => default.At program value := by
  cases default with
  | absent =>
      refine Passes.andThen (passes_uneaten ?_) ?_
      · rcases hafter with hkind | hkind | hkind <;>
          simp [Tree.write, preceded, Tree.isEmpty, hkind,
            TokenKind.sameVariant]
      · rintro _ rfl
        exact accepts_pure fun _ _ => rfl
  | present value =>
      refine Passes.andThen
        (passes_eat rfl (ne_eof rfl) (settles_of_leads (value.leads more))) ?_
      rintro _ rfl
      apply ((hdefault value rfl).expr hdepth hafter.joint? fun _ =>
        hafter.ne_newline).bind
      intro program id _ hstands
      exact accepts_pure fun _ hgrows => ⟨id, rfl, hstands.grows hgrows⟩

/-- A parameter with or without a default. -/
theorem accepts_param {name : String} {default : Tree .optional}
    (hdefault : default.ReadsOptional) (hafter : AfterEntry more)
    (hdepth : (default.write more).length ≤ depth) :
    Accepts setting base (param (grammar depth))
      (.of (.ident name) ::
        preceded (!default.isEmpty) (.mark .assign) (default.write more)) more
      fun program param => ∃ value span,
        param = ⟨name, value, false, span⟩ ∧ default.At program value := by
  have hsettles : setting.Settles
      (preceded (!default.isEmpty) (.mark .assign) (default.write more)) := by
    intro _
    cases default with
    | absent => exact hafter.ne_newline
    | present value => exact ne_newline rfl
  apply (passes_place _).andThen
  intro start _
  refine Passes.andThen (passes_uneaten rfl) ?_
  rintro _ rfl
  refine Passes.andThen (passes_expectIdent rfl hsettles) ?_
  rintro _ rfl
  apply (accepts_default hdefault hafter hdepth).bind
  intro program value _ hat
  apply (passes_place _).andThen
  intro last _
  exact accepts_pure fun _ hgrows => ⟨value, _, rfl, hat.grows hgrows⟩

theorem Tree.eq_noParams {params : Tree .params}
    (hempty : params.isEmpty = true) : params = .noParams := by
  cases params <;> first | rfl | cases hempty

theorem afterEntry_param (others : Tree .params) (more : List Token) :
    AfterEntry (preceded (!others.isEmpty) (.mark .comma)
      (others.write (.of (.mark .closeParen) :: more))) := by
  cases hempty : others.isEmpty with
  | true =>
      rw [Tree.eq_noParams hempty]
      exact .inr (.inl rfl)
  | false => exact .inl rfl

/-- After a parameter there is a comma if more of them come. -/
theorem passes_paramComma (others : Tree .params) (more : List Token) :
    Passes setting (eat (.mark .comma))
      (preceded (!others.isEmpty) (.mark .comma)
        (others.write (.of (.mark .closeParen) :: more)))
      (others.write (.of (.mark .closeParen) :: more))
      (· = !others.isEmpty) := by
  cases others with
  | noParams => exact passes_uneaten rfl
  | rest name => exact passes_eat rfl (ne_eof rfl) fun _ => ne_newline rfl
  | param name default others =>
      exact passes_eat rfl (ne_eof rfl) fun _ => ne_newline rfl

theorem readsParams_param {name : String} {default : Tree .optional}
    {others : Tree .params} (hdefault : default.ReadsOptional)
    (hothers : others.ReadsParams) :
    (Tree.param name default others).ReadsParams := by
  intro depth setting base place more rounds hdepth hrounds
  obtain _ | rounds := rounds
  · cases hrounds
  have hafter := afterEntry_param others more
  have hcomma := (longer_refl (others.write
    (.of (.mark .closeParen) :: more))).preceded (!others.isEmpty)
    (.mark .comma)
  have hwritten := default.longer_write (preceded (!others.isEmpty)
    (.mark .comma) (others.write (.of (.mark .closeParen) :: more)))
  have hsign := (longer_refl (default.write (preceded (!others.isEmpty)
    (.mark .comma) (others.write (.of (.mark .closeParen) :: more))))).preceded
    (!default.isEmpty) (.mark .assign)
  simp only [Longer, Category.least, Tree.write, List.length_cons] at *
  apply (passes_check _).andThen
  rintro _ rfl
  apply (accepts_param hdefault hafter (by omega)).bind
  rintro program _ _ ⟨value, span, rfl, hat⟩
  apply (passes_check _).andThen
  rintro _ rfl
  rw [if_neg (by simp)]
  apply (passes_paramComma others more).andThen
  rintro _ rfl
  have hcommaOrClose : (!(!others.isEmpty) &&
      !(firstKind (preceded (!others.isEmpty) (.mark .comma) (others.write
        (.of (.mark .closeParen) :: more)))).sameVariant
          (.mark .closeParen)) = false := by
    cases hempty : others.isEmpty with
    | true =>
        rw [Tree.eq_noParams hempty]
        rfl
    | false => rfl
  simp only [hcommaOrClose, Bool.false_eq_true, if_false]
  apply (hothers depth setting program place more rounds (by omega)
    (by omega)).bind
  intro after rest hgrows hrest
  exact accepts_pure fun _ hmore => ⟨value, span, rest, rfl,
    (hat.grows hgrows).grows hmore, hrest.grows hmore⟩

/-- A list of parameters does not start with a line feed. -/
theorem Tree.params_ne_newline (params : Tree .params) (more : List Token) :
    firstKind (params.write (.of (.mark .closeParen) :: more)) ≠ .newline := by
  cases params <;> exact ne_newline rfl

theorem accepts_params {params : Tree .params} (hparams : params.ReadsParams)
    (hdepth : (params.write (.of (.mark .closeParen) :: more)).length ≤ depth)
    (hsettles : setting.Settles more) :
    Accepts setting base (Parse.params (grammar depth))
      (.of (.mark .openParen) :: params.write (.of (.mark .closeParen) :: more))
      more fun program rows => params.At program rows := by
  apply (passes_place _).andThen
  intro place _
  refine Passes.andThen
    (passes_expect rfl (ne_eof rfl) fun _ => params.params_ne_newline more) ?_
  rintro _ _
  have hregion : Accepts setting base
      (inRegion false do paramsFrom (grammar depth) place (← rounds))
      (params.write (.of (.mark .closeParen) :: more))
      (.of (.mark .closeParen) :: more)
      fun program rows => params.At program rows := by
    refine Accepts.inRegion ?_ fun _ => params.params_ne_newline more
    apply passes_rounds.andThen
    rintro _ rfl
    exact hparams depth _ base place more _ hdepth (Nat.lt_succ_self _)
  apply hregion.bind
  intro program rows _ hat
  refine Passes.andThen (passes_expect rfl (ne_eof rfl) hsettles) ?_
  rintro _ _
  exact accepts_pure fun _ hgrows => hat.grows hgrows

end Params

end ChainScript
