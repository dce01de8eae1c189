import ChainScript.Proofs.ConcreteGrammar
import ChainScript.Proofs.FirstTokens

/-
With which kinds of tokens phrases start.

The first token of an expression tells how tightly it binds at most, and the
token after a key or after the word of a function tells entries and statements
apart that start alike.  Statements never start with what ends them.
-/

namespace ChainScript

/-- How an expression goes on after its first operand, if it does. -/
def GoesOn (kinds : List TokenKind) : Prop :=
  kinds = [] ∨
    ((firstOf kinds).joint?.isSome = true ∧ firstOf kinds ≠ .mark .assign)

/-- What comes after the first token of an expression, where it matters. -/
structure Opens (kinds : List TokenKind) : Prop where
  nonempty : kinds ≠ []
  /-- The parameters of a function without a name. -/
  func : firstOf kinds = .keyword .funcKw →
    firstOf kinds.tail = .mark .openParen
  /-- Nothing, or an operator; after an assignment no block. -/
  key : (firstOf kinds).isKey = true → kinds.tail = [] ∨
    ((firstOf kinds.tail).joint?.isSome = true ∧
      (firstOf kinds.tail = .mark .assign →
        firstOf kinds.tail.tail ≠ .mark .openBrace))

theorem Opens.append {kinds others : List TokenKind} (hopens : Opens kinds)
    (hothers : GoesOn others) : Opens (kinds ++ others) := by
  obtain ⟨hne, hfunc, hkey⟩ := hopens
  cases kinds with
  | nil => exact absurd rfl hne
  | cons kind kinds =>
      refine ⟨nofun, fun hkind => ?_, fun hkind => ?_⟩
      · have hparen := hfunc hkind
        cases kinds with
        | nil => exact nomatch hparen
        | cons second kinds => exact hparen
      · rcases hkey hkind with hnone | ⟨hjoint, hassign⟩
        · obtain rfl : kinds = [] := hnone
          rcases hothers with rfl | ⟨hjoint, hne⟩
          · exact .inl rfl
          · exact .inr ⟨hjoint, fun heq => absurd heq hne⟩
        · cases kinds with
          | nil => exact nomatch hjoint
          | cons second kinds =>
              refine .inr ⟨hjoint, fun heq => ?_⟩
              have hbrace := hassign heq
              cases kinds with
              | nil =>
                  rcases hothers with rfl | ⟨hjoint, -⟩
                  · nofun
                  · intro hopen
                    have hfirst : firstOf others = .mark .openBrace := hopen
                    rw [hfirst] at hjoint
                    cases hjoint
              | cons third kinds => exact hbrace

/-- A token that is neither a key nor the word of a function. -/
theorem opens_of_other {kind : TokenKind} (kinds : List TokenKind)
    (hkey : kind.isKey = false) (hfunc : kind ≠ .keyword .funcKw) :
    Opens (kind :: kinds) :=
  ⟨nofun, fun hkind => absurd hkind hfunc,
    fun hkind => nomatch hkey.symm.trans hkind⟩

theorem opens_single {kind : TokenKind} (hfunc : kind ≠ .keyword .funcKw) :
    Opens [kind] :=
  ⟨nofun, fun hkind => absurd hkind hfunc, fun _ => .inl rfl⟩

theorem Breaks.dropWhile_append {gap : List TokenKind} (hgap : Breaks gap)
    (more : List TokenKind) :
    (gap ++ more).dropWhile isBreak = more.dropWhile isBreak := by
  induction gap with
  | nil => rfl
  | cons kind gap ih =>
      have hline : isBreak kind = true := by
        simp [isBreak, hgap kind List.mem_cons_self]
      rw [List.cons_append, List.dropWhile_cons_of_pos hline]
      exact ih fun other hmem => hgap other (List.mem_cons_of_mem _ hmem)

theorem dropWhile_of_firstOf {kinds : List TokenKind}
    (hfirst : firstOf kinds ≠ .newline) : kinds.dropWhile isBreak = kinds := by
  cases kinds with
  | nil => rfl
  | cons kind kinds =>
      exact List.dropWhile_cons_of_neg (by simpa [isBreak] using hfirst)

theorem ne_nil_of_startsStmt {kinds : List TokenKind}
    (hstarts : (firstOf kinds).startsStmt = true) : kinds ≠ [] := by
  rintro rfl
  cases hstarts

theorem firstOf_append {kinds : List TokenKind} (hne : kinds ≠ [])
    (others : List TokenKind) : firstOf (kinds ++ others) = firstOf kinds := by
  cases kinds with
  | nil => exact absurd rfl hne
  | cons kind kinds => rfl

/-- How a phrase starts. -/
def Phrase.Starts : Phrase → List TokenKind → Prop
  | .expr level, kinds => (firstOf kinds).Leads level ∧ Opens kinds
  | .atom, kinds => (firstOf kinds).lead? = some .suffix ∧ Opens kinds
  | .operands _, kinds | .suffixes, kinds => GoesOn kinds
  | .statement _, kinds | .inline _, kinds | .small _, kinds
  | .compound _, kinds => (firstOf kinds).startsStmt = true
  | .statements _, kinds => Breaks kinds ∨
      (firstOf (kinds.dropWhile isBreak)).startsStmt = true
  | .block _, kinds => firstOf kinds = .mark .openBrace
  | .entry, kinds => (firstOf kinds).lead?.isSome = true ∨
      firstOf kinds = .mark .ellipsis
  | .param, kinds => ∃ name, firstOf kinds = .ident name
  | _, _ => True

section Starts

variable {dialect : Dialect} {phrase : Phrase} {kinds : List TokenKind}

theorem goesOn_of_mem_operators {level : Precedence} {op : TokenKind}
    (hop : op ∈ level.operators) (kinds : List TokenKind) :
    GoesOn (op :: kinds) := by
  refine .inr ?_
  cases level <;>
    simp only [Precedence.operators, List.mem_cons, List.not_mem_nil, or_false]
      at hop <;>
    rcases hop with rfl | rfl | rfl | rfl | rfl | rfl <;> exact ⟨rfl, nofun⟩

theorem Target.starts {kinds : List TokenKind} (htarget : Target dialect kinds) :
    (firstOf kinds).lead? = some .suffix ∧ (kinds ≠ []) ∧
      ((firstOf kinds).isKey = true → kinds.tail = []) ∧
      firstOf kinds ≠ .keyword .funcKw := by
  cases htarget with
  | ident name => exact ⟨rfl, nofun, fun _ => rfl, nofun⟩
  | badge key _ => exact ⟨rfl, nofun, nofun, nofun⟩
  | wrapped target _ _ => exact ⟨rfl, nofun, nofun, nofun⟩

/-- An assignment goes on with its sign after a name, and no block comes after
the sign. -/
theorem Target.opens {kinds value : List TokenKind}
    (htarget : Target dialect kinds)
    (hvalue : firstOf value ≠ .mark .openBrace) :
    Opens (kinds ++ .mark .assign :: value) := by
  obtain ⟨-, hne, hkey, hfunc⟩ := htarget.starts
  cases kinds with
  | nil => exact absurd rfl hne
  | cons kind kinds =>
      refine ⟨nofun, fun hkind => absurd hkind hfunc, fun hkind => ?_⟩
      obtain rfl : kinds = [] := hkey hkind
      exact .inr ⟨rfl, fun _ => hvalue⟩

theorem leads_append {level : Precedence} {kinds : List TokenKind}
    (hleads : (firstOf kinds).Leads level) (others : List TokenKind) :
    (firstOf (kinds ++ others)).Leads level := by
  rwa [firstOf_append (fun hnil => ?_)]
  rw [hnil] at hleads
  obtain ⟨lead, hlead, -⟩ := hleads
  cases hlead

theorem startsStmt_dropWhile {gap stmt : List TokenKind} (hgap : Breaks gap)
    (hstmt : (firstOf stmt).startsStmt = true) (others : List TokenKind) :
    (firstOf ((gap ++ stmt ++ others).dropWhile isBreak)).startsStmt = true := by
  rw [List.append_assoc, hgap.dropWhile_append]
  have hfirst := firstOf_append (ne_nil_of_startsStmt hstmt) others
  rw [dropWhile_of_firstOf, hfirst]
  · exact hstmt
  · rw [hfirst]
    exact TokenKind.ne_of_startsStmt hstmt rfl

theorem Precedence.rank_le_tighter (level : Precedence) :
    level.rank ≤ level.tighter.rank := by
  cases level <;> decide

/-- How each phrase of a dialect starts. -/
theorem Derives.starts (hderives : Derives dialect phrase kinds) :
    phrase.Starts kinds := by
  induction hderives with
  | noStatement hgap => exact .inl hgap
  | lastStatement _ hgap _ ih =>
      have hstarts := startsStmt_dropWhile hgap ih []
      rw [List.append_nil] at hstarts
      exact .inr hstarts
  | nextStatement last _ hgap _ _ _ ih =>
      exact .inr (startsStmt_dropWhile hgap ih _)
  | nextCompound _ hgap _ _ ih => exact .inr (startsStmt_dropWhile hgap ih _)
  | lastInline _ hgap _ ih =>
      have hstarts := startsStmt_dropWhile hgap ih []
      rw [List.append_nil] at hstarts
      exact .inr hstarts
  | nextInline _ hgap _ _ ih => exact .inr (startsStmt_dropWhile hgap ih _)
  | inlineOne _ ih => exact ih
  | inlineClosed _ ih | inlineMore _ _ ih =>
      exact (congrArg TokenKind.startsStmt
        (firstOf_append (ne_nil_of_startsStmt ih) _)).trans ih
  | ofSmall _ ih | ofCompound _ ih => exact ih
  | leave word hword | leaveWith word hword | loopExit word hword =>
      simp only [List.mem_cons, List.not_mem_nil, or_false] at hword
      rcases hword with rfl | rfl <;> rfl
  | evaluate _ ih => exact ih.1.startsStmt
  | branch | scope | loop | attempt | resource | namedResource => rfl
  | assignBlock | funcBlock | inheritBlock | block => rfl
  | assign htarget _ ih =>
      have hlead := htarget.starts.1
      exact ⟨leads_append (TokenKind.leads_of_suffix hlead _) _,
        htarget.opens (ih.1.ne rfl)⟩
  | plain _ _ ih => exact ⟨ih.1.mono (Precedence.rank_le_tighter _), ih.2⟩
  | negation => exact ⟨⟨.not, rfl, Nat.le_refl _⟩, opens_of_other _ rfl nofun⟩
  | comparison op hop _ _ ih _ =>
      exact ⟨leads_append (ih.1.mono (by decide)) _,
        ih.2.append (goesOn_of_mem_operators hop _)⟩
  | signed sign hsign =>
      simp only [List.mem_cons, List.not_mem_nil, or_false] at hsign
      rcases hsign with rfl | rfl
      · exact ⟨⟨.sign, rfl, Nat.le_refl _⟩, opens_of_other _ rfl nofun⟩
      · exact ⟨⟨.sign, rfl, Nat.le_refl _⟩, opens_of_other _ rfl nofun⟩
  | chain _ _ _ ih ihothers =>
      exact ⟨leads_append (ih.1.mono (Precedence.rank_le_tighter _)) _,
        ih.2.append ihothers⟩
  | noOperand | noSuffix => exact .inl rfl
  | operand op hop => exact goesOn_of_mem_operators hop _
  | suffixed _ _ ih ihothers =>
      exact ⟨leads_append (TokenKind.leads_of_suffix ih.1 _) _,
        ih.2.append ihothers⟩
  | call | member | index => exact .inr ⟨rfl, nofun⟩
  | literal kind hliteral =>
      have hlead : kind.lead? = some .suffix := by
        unfold TokenKind.isLiteral at hliteral
        split at hliteral <;> first | rfl | cases hliteral
      refine ⟨hlead, opens_single ?_⟩
      rintro rfl
      cases hliteral
  | name name => exact ⟨rfl, opens_single nofun⟩
  | badge | array | args => exact ⟨rfl, opens_of_other _ rfl nofun⟩
  | func => exact ⟨rfl, nofun, fun _ => rfl, nofun⟩
  | keyed key hkey =>
      refine .inl ?_
      cases key <;> first | rfl | cases hkey
  | expand => exact .inr rfl
  | item _ ih =>
      obtain ⟨lead, hlead, -⟩ := ih.1
      exact .inl (congrArg Option.isSome hlead)
  | required name | optional name => exact ⟨name, rfl⟩
  | _ => trivial

end Starts

end ChainScript
