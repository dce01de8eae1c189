import ChainScript.Proofs.Boundaries
import ChainScript.Proofs.Denotations
import ChainScript.Proofs.LexerSteps

/-
The tokens of a text are its one tiling by longest matches.

A tiling takes the longest match off the text again and again.  What is dropped
leaves nothing, and any other match leaves one token of the kind that it
denotes, save that a float right after a dot leaves two member keys and the dot
between them.  The lexer gives the tokens of a tiling and fails where there is
none.  In a tiling the tokens stand in order, and between two of them there is
only what is dropped.
-/

namespace ChainScript

open scoped Computability

/-- No text has two shapes. -/
theorem Shape.eq_of_mem_pattern {first second : Shape} {text : List Char}
    (hfirst : text ∈ first.pattern) (hsecond : text ∈ second.pattern) :
    first = second := by
  obtain ⟨lexeme, hscan, more, hmore, hends⟩ :=
    scan?_complete [] hfirst
  obtain ⟨other, hother, after, hafter, hendsOther⟩ :=
    scan?_complete [] hsecond
  obtain rfl : lexeme = other := Option.some.inj (hscan.symm.trans hother)
  obtain ⟨rest, hrest⟩ := scan?_eq_append hscan
  have hlength := congrArg List.length hrest
  rw [hmore, List.append_nil, List.length_append, List.length_append]
    at hlength
  have hnil : more = [] := List.length_eq_zero_iff.mp (by omega)
  obtain rfl : after = more := List.append_cancel_left (hafter.symm.trans hmore)
  exact (hends hnil).symm.trans (hendsOther hnil)

/-- Two member keys and the dot between them. -/
def memberTokens (left right : List Char) (first second : Int64) (start : Nat) :
    List Token :=
  let dot := start + utf8Length left
  [⟨.int first, ⟨start, dot⟩⟩, ⟨.mark .dot, ⟨dot, dot + 1⟩⟩,
    ⟨.int second, ⟨dot + 1, dot + 1 + utf8Length right⟩⟩]

/-- The tokens of a text that starts at an offset, given whether a dot stands
before it. -/
inductive Tiles : Bool → Nat → List Char → List Token → Prop
  | done {afterDot : Bool} {offset : Nat} :
      Tiles afterDot offset [] [⟨.eof, .point offset⟩]
  | skip {afterDot : Bool} {offset : Nat} {piece rest : List Char}
      {tokens : List Token} (hpiece : piece ∈ dropped)
      (hlongest : Longest piece (piece ++ rest))
      (hrest : Tiles afterDot (offset + utf8Length piece) rest tokens) :
      Tiles afterDot offset (piece ++ rest) tokens
  | token {afterDot : Bool} {offset : Nat} {piece rest : List Char}
      {kind : TokenKind} {tokens : List Token} (hdenotes : Denotes piece kind)
      (hlongest : Longest piece (piece ++ rest))
      (hsingle : afterDot = true → piece ∉ Shape.decimal.pattern)
      (hrest : Tiles (kind == .mark .dot) (offset + utf8Length piece) rest
        tokens) :
      Tiles afterDot offset (piece ++ rest)
        (⟨kind, ⟨offset, offset + utf8Length piece⟩⟩ :: tokens)
  | pair {offset : Nat} {left right rest : List Char} {first second : Int64}
      {tokens : List Token}
      (hdecimal : left ++ '.' :: right ∈ Shape.decimal.pattern)
      (hlongest : Longest (left ++ '.' :: right) (left ++ '.' :: right ++ rest))
      (hleft : Denotes left (.int first)) (hright : Denotes right (.int second))
      (hrest : Tiles false (offset + utf8Length (left ++ '.' :: right)) rest
        tokens) :
      Tiles true offset (left ++ '.' :: right ++ rest)
        (memberTokens left right first second offset ++ tokens)

section Lexer

theorem Denotes.readInteger? {text : List Char} {value : Int64}
    (hdenotes : Denotes text (.int value)) :
    text ∈ digitRun ∧ readInteger? text = some value := by
  cases hdenotes with
  | int htext hrange => exact ⟨htext, by simp [readInteger?_eq, hrange]⟩

theorem denotes_of_readInteger? {text : List Char} {value : Int64}
    (htext : text ∈ digitRun) (hread : readInteger? text = some value) :
    Denotes text (.int value) := by
  rw [readInteger?_eq] at hread
  by_cases hrange : digitsValue text ≤ maxInteger
  · simp only [hrange, if_true, Option.some.injEq] at hread
    subst hread
    exact .int htext hrange
  · simp [hrange] at hread

theorem any_mark_of_digitRun {text : List Char} (htext : text ∈ digitRun) :
    (text.any fun c => c = 'e' || c = 'E') = false := by
  rw [List.any_eq_false]
  intro c hc hmark
  have hrun := all_of_digitRun htext c hc
  have hmark : c = 'e' ∨ c = 'E' := by simpa using hmark
  rcases hmark with rfl | rfl <;> cases hrun

/-- An exponent starts with a mark that no key has. -/
theorem any_mark_of_exponent {exponent : List Char}
    (hexponent : exponent ∈ 1 + exponentPattern) (hne : exponent ≠ []) :
    (exponent.any fun c => c = 'e' || c = 'E') = true := by
  rcases hexponent with hnone | hpower
  · exact absurd hnone hne
  · obtain ⟨mark, sign, digit, digits, rfl, hmark, -⟩ :=
      mem_exponentPattern.mp hpower
    rcases hmark with rfl | rfl <;> rfl

/-- What has no such mark ends without an exponent. -/
theorem exponent_eq_nil {text exponent : List Char}
    (hexponent : exponent ∈ 1 + exponentPattern)
    (hplain : ((text ++ exponent).any fun c => c = 'e' || c = 'E') = false) :
    exponent = [] := by
  by_contra hne
  rw [List.any_append, any_mark_of_exponent hexponent hne, Bool.or_true]
    at hplain
  cases hplain

section Pairs

variable {left rest : List Char}

/-- A float after a dot is taken apart at its point. -/
theorem memberPair_of_keys {first second : Int64} (hleft : left ∈ digitRun)
    (hfirst : readInteger? left = some first)
    (hsecond : readInteger? rest = some second)
    (hplain : (rest.any fun c => c = 'e' || c = 'E') = false) (start : Nat) :
    memberPair (left ++ '.' :: rest) start =
      .ok (memberTokens left rest first second start) := by
  obtain ⟨htake, hdrop⟩ := split_at_point rest hleft
  have hpoint : '.'.utf8Size = 1 := rfl
  simp only [memberPair, htake, hdrop, List.drop_succ_cons, List.drop_zero,
    hfirst, hsecond, hplain]
  simp [memberTokens, hpoint, Nat.add_assoc]

/-- It is an error as a whole where either side of the point is no key. -/
theorem memberPair_of_refused (hleft : left ∈ digitRun)
    (hrefused : readInteger? left = none ∨ readInteger? rest = none ∨
      (rest.any fun c => c = 'e' || c = 'E') = true) (start : Nat) :
    memberPair (left ++ '.' :: rest) start =
      .error ⟨⟨start, start + utf8Length (left ++ '.' :: rest)⟩,
        .invalidNumber (String.ofList (left ++ '.' :: rest))⟩ := by
  obtain ⟨htake, hdrop⟩ := split_at_point rest hleft
  simp only [memberPair, htake, hdrop, List.drop_succ_cons, List.drop_zero]
  split
  · next hfirst hsecond hplain =>
    rw [hfirst, hsecond, hplain] at hrefused
    rcases hrefused with hnone | hnone | hmark
    · cases hnone
    · cases hnone
    · cases hmark
  · rfl

/-- So what is taken apart has a key on either side. -/
theorem of_memberPair_eq_ok {start : Nat} {tokens : List Token}
    (hleft : left ∈ digitRun)
    (hpair : memberPair (left ++ '.' :: rest) start = .ok tokens) :
    (rest.any fun c => c = 'e' || c = 'E') = false ∧
      ∃ first second, readInteger? left = some first ∧
        readInteger? rest = some second ∧
        tokens = memberTokens left rest first second start := by
  have haccepted : ¬ (readInteger? left = none ∨ readInteger? rest = none ∨
      (rest.any fun c => c = 'e' || c = 'E') = true) := by
    intro hrefused
    rw [memberPair_of_refused hleft hrefused] at hpair
    cases hpair
  simp only [not_or, Bool.not_eq_true] at haccepted
  obtain ⟨hfirst, hsecond, hplain⟩ := haccepted
  obtain ⟨first, hfirst⟩ := Option.ne_none_iff_exists'.mp hfirst
  obtain ⟨second, hsecond⟩ := Option.ne_none_iff_exists'.mp hsecond
  rw [memberPair_of_keys hleft hfirst hsecond hplain] at hpair
  cases hpair
  exact ⟨hplain, first, second, hfirst, hsecond, rfl⟩

end Pairs

/-- A float after a dot is taken apart into two keys that it denotes. -/
theorem memberPair_eq_ok_iff {text : List Char} {start : Nat}
    {tokens : List Token} (htext : text ∈ Shape.decimal.pattern) :
    memberPair text start = .ok tokens ↔
      ∃ left right first second, text = left ++ '.' :: right ∧
        Denotes left (.int first) ∧ Denotes right (.int second) ∧
        tokens = memberTokens left right first second start := by
  constructor
  · intro hpair
    obtain ⟨whole, hwhole, fraction, hfraction, exponent, hexponent, rfl⟩ :=
      mem_decimal_pattern.mp htext
    obtain ⟨hplain, first, second, hfirst, hsecond, rfl⟩ :=
      of_memberPair_eq_ok hwhole hpair
    obtain rfl := exponent_eq_nil hexponent hplain
    rw [List.append_nil] at hsecond ⊢
    exact ⟨whole, fraction, first, second, rfl,
      denotes_of_readInteger? hwhole hfirst,
      denotes_of_readInteger? hfraction hsecond, rfl⟩
  · rintro ⟨left, right, first, second, rfl, hleft, hright, rfl⟩
    obtain ⟨hleftRun, hleft⟩ := hleft.readInteger?
    obtain ⟨hrightRun, hright⟩ := hright.readInteger?
    exact memberPair_of_keys hleftRun hleft hright
      (any_mark_of_digitRun hrightRun) start

theorem Longest.scan? {piece chars : List Char} {shape : Shape}
    (hlongest : Longest piece chars) (hpiece : piece ∈ shape.pattern) :
    scan? chars = some ⟨shape, piece⟩ :=
  scan?_eq_some_iff.mpr ⟨hpiece, hlongest⟩

/-- The tokens of a tiling are what the lexer gives. -/
theorem Tiles.lexAt {afterDot : Bool} {offset : Nat} {chars : List Char}
    {tokens : List Token} (htiles : Tiles afterDot offset chars tokens) :
    lexAt afterDot offset chars = .ok tokens := by
  induction htiles with
  | done => rfl
  | skip hpiece hlongest _ ih => rw [lexAt_skip _ _ hpiece hlongest, ih]
  | @token afterDot offset piece rest kind tokens hdenotes hlongest hsingle _ ih =>
      obtain ⟨shape, hshape, hkind⟩ := hdenotes.kind
      have hplain : ¬ (shape = .decimal ∧ afterDot = true) := by
        rintro ⟨rfl, hdot⟩
        exact hsingle hdot hshape
      have htokens : Lexeme.tokens ⟨shape, piece⟩ afterDot offset =
          .ok [⟨kind, ⟨offset, offset + utf8Length piece⟩⟩] := by
        rw [Lexeme.tokens, if_neg hplain, hkind]
        rfl
      rw [lexAt_lexeme _ _ ⟨shape, piece⟩ (hlongest.scan? hshape), htokens]
      simp only [Except.bind, endsInDot, List.getLast?_singleton, ih]
      rfl
  | @pair offset left right rest first second tokens hdecimal hlongest hleft
      hright _ ih =>
      have htokens : Lexeme.tokens ⟨.decimal, left ++ '.' :: right⟩ true offset =
          .ok (memberTokens left right first second offset) := by
        rw [Lexeme.tokens, if_pos ⟨rfl, rfl⟩]
        exact (memberPair_eq_ok_iff hdecimal).mpr
          ⟨left, right, first, second, rfl, hleft, hright, rfl⟩
      rw [lexAt_lexeme _ _ ⟨.decimal, left ++ '.' :: right⟩
        (hlongest.scan? hdecimal), htokens]
      change (ChainScript.lexAt false _ rest).map _ = _
      rw [ih]
      rfl

/-- The tokens of a lexeme are those that a tiling has for it. -/
theorem tiles_lexeme {lexeme : Lexeme} {afterDot : Bool} {offset : Nat}
    {rest : List Char} {own others : List Token}
    (hshape : lexeme.text ∈ lexeme.shape.pattern)
    (hlongest : Longest lexeme.text (lexeme.text ++ rest))
    (hown : lexeme.tokens afterDot offset = .ok own)
    (hothers : Tiles (endsInDot own) (offset + utf8Length lexeme.text) rest
      others) :
    Tiles afterDot offset (lexeme.text ++ rest) (own ++ others) := by
  by_cases hpair : lexeme.shape = .decimal ∧ afterDot = true
  · rw [Lexeme.tokens, if_pos hpair] at hown
    obtain ⟨hdecimal, rfl⟩ := hpair
    rw [hdecimal] at hshape
    obtain ⟨left, right, first, second, htext, hleft, hright, rfl⟩ :=
      (memberPair_eq_ok_iff hshape).mp hown
    rw [htext] at hshape hlongest hothers ⊢
    exact .pair hshape hlongest hleft hright hothers
  · rw [Lexeme.tokens, if_neg hpair] at hown
    cases hkind : lexeme.kind offset with
    | error error => simp [hkind, Except.map] at hown
    | ok kind =>
        simp only [hkind, Except.map, Except.ok.injEq] at hown
        subst hown
        refine .token (Lexeme.denotes_of_kind hshape hkind) hlongest ?_ hothers
        intro hdot hdecimal
        exact hpair ⟨Shape.eq_of_mem_pattern hshape hdecimal, hdot⟩

/-- What the lexer gives are the tokens of a tiling. -/
theorem tiles_of_lexAt {afterDot : Bool} {offset : Nat} {chars : List Char}
    {tokens : List Token} (hlex : lexAt afterDot offset chars = .ok tokens) :
    Tiles afterDot offset chars tokens := by
  induction chars using lexed_induction generalizing afterDot offset tokens with
  | nil =>
      cases hlex
      exact .done
  | skip piece rest hpiece hlongest ih =>
      rw [lexAt_skip _ _ hpiece hlongest] at hlex
      exact .skip hpiece hlongest (ih hlex)
  | invalid c rest hblank hcomment hscan =>
      rw [lexAt_invalid _ _ hblank hcomment hscan] at hlex
      cases hlex
  | lexeme lexeme rest hscan ih =>
      obtain ⟨hshape, hlongest⟩ := scan?_eq_some_iff.mp hscan
      obtain ⟨own, others, hown, hothers, rfl⟩ :=
        of_lexAt_lexeme lexeme hscan hlex
      exact tiles_lexeme hshape hlongest hown (ih hothers)

end Lexer

section Places

/-- What lies between the tokens, from a position on, is dropped. -/
def GapsDropped (chars : List Char) : Nat → List Token → Prop
  | _, [] => True
  | position, token :: rest =>
      (∃ gap ∈ dropped∗, Span.Covers chars ⟨position, token.span.start⟩ gap) ∧
        GapsDropped chars token.span.stop rest

variable {afterDot : Bool} {offset : Nat} {chars : List Char}
  {tokens : List Token}

theorem Tiles.le_start (htiles : Tiles afterDot offset chars tokens) :
    ∀ token ∈ tokens, offset ≤ token.span.start := by
  induction htiles with
  | done => simp [Span.point]
  | skip _ _ _ ih =>
      intro token htoken
      exact Nat.le_trans (Nat.le_add_right _ _) (ih token htoken)
  | token _ _ _ _ ih =>
      intro token htoken
      rcases List.mem_cons.mp htoken with rfl | htoken
      · exact Nat.le_refl _
      · exact Nat.le_trans (Nat.le_add_right _ _) (ih token htoken)
  | pair _ _ _ _ _ ih =>
      intro token htoken
      rcases List.mem_append.mp htoken with htoken | htoken
      · simp only [memberTokens, List.mem_cons, List.not_mem_nil, or_false]
          at htoken
        rcases htoken with rfl | rfl | rfl <;> dsimp only <;> omega
      · exact Nat.le_trans (Nat.le_add_right _ _) (ih token htoken)

theorem utf8Length_member (left right : List Char) :
    utf8Length (left ++ '.' :: right) =
      utf8Length left + 1 + utf8Length right := by
  have hpoint : '.'.utf8Size = 1 := rfl
  simp [hpoint, Nat.add_assoc]

/-- Every token ends before the next one starts. -/
theorem Tiles.ordered (htiles : Tiles afterDot offset chars tokens) :
    tokens.Pairwise fun left right => left.span.stop ≤ right.span.start := by
  induction htiles with
  | done => simp
  | skip _ _ _ ih => exact ih
  | token _ _ _ hrest ih => exact List.pairwise_cons.mpr ⟨hrest.le_start, ih⟩
  | pair _ _ _ _ hrest ih =>
      refine List.pairwise_append.mpr ⟨?_, ih, ?_⟩
      · simp [memberTokens]
      · intro left hleft right hright
        have hstart := hrest.le_start right hright
        rw [utf8Length_member] at hstart
        simp only [memberTokens, List.mem_cons, List.not_mem_nil, or_false]
          at hleft
        rcases hleft with rfl | rfl | rfl <;> dsimp only <;> omega

/-- The last token, and no other one, is the end of the text. -/
theorem Tiles.ended (htiles : Tiles afterDot offset chars tokens) :
    ∃ front, tokens = front ++ [⟨.eof, .point (offset + utf8Length chars)⟩] ∧
      ∀ token ∈ front, token.kind ≠ .eof := by
  induction htiles with
  | done => exact ⟨[], rfl, by simp⟩
  | skip _ _ _ ih =>
      obtain ⟨front, rfl, hfront⟩ := ih
      exact ⟨front, by rw [utf8Length_append, Nat.add_assoc], hfront⟩
  | token hdenotes _ _ _ ih =>
      obtain ⟨front, rfl, hfront⟩ := ih
      refine ⟨_ :: front, by rw [utf8Length_append, Nat.add_assoc]; rfl,
        List.forall_mem_cons.mpr ⟨?_, hfront⟩⟩
      rintro rfl
      cases hdenotes
  | @pair offset left right rest first second _ _ _ _ _ _ ih =>
      obtain ⟨front, rfl, hfront⟩ := ih
      refine ⟨memberTokens left right first second offset ++ front, ?_, ?_⟩
      · rw [List.append_assoc, utf8Length_append (left ++ '.' :: right),
          Nat.add_assoc]
      intro token htoken
      rcases List.mem_append.mp htoken with htoken | htoken
      · simp only [memberTokens, List.mem_cons, List.not_mem_nil, or_false]
          at htoken
        rcases htoken with rfl | rfl | rfl <;> nofun
      · exact hfront token htoken

/-- The text that a token covers denotes its kind. -/
theorem Tiles.denoted (htiles : Tiles afterDot offset chars tokens)
    (before : List Char) (hbefore : offset = utf8Length before) :
    ∀ token ∈ tokens, token.kind ≠ .eof → ∃ piece,
      token.span.Covers (before ++ chars) piece ∧ Denotes piece token.kind := by
  induction htiles generalizing before with
  | done => simp
  | @skip _ _ piece rest _ _ _ _ ih =>
      subst hbefore
      simpa using ih (before ++ piece) (by simp)
  | @token _ _ piece rest kind _ hdenotes _ _ _ ih =>
      subst hbefore
      refine List.forall_mem_cons.mpr ⟨fun _ => ?_, ?_⟩
      · exact ⟨piece, Span.covers_append _ _ _, hdenotes⟩
      · simpa using ih (before ++ piece) (by simp)
  | @pair _ left right rest first second _ _ _ hleft hright _ ih =>
      subst hbefore
      intro token htoken hkind
      rcases List.mem_append.mp htoken with htoken | htoken
      · simp only [memberTokens, List.mem_cons, List.not_mem_nil, or_false]
          at htoken
        rcases htoken with rfl | rfl | rfl
        · exact ⟨left, ⟨before, '.' :: right ++ rest, by simp, rfl⟩, hleft⟩
        · exact ⟨['.'], ⟨before ++ left, right ++ rest, by simp, by simp; rfl⟩,
            .mark .dot⟩
        · exact ⟨right, ⟨before ++ left ++ ['.'], rest, by simp, by
            simp [Nat.add_assoc]; rfl⟩, hright⟩
      · simpa using ih (before ++ (left ++ '.' :: right)) (by simp) token htoken
          hkind

/-- A gap goes on with what is dropped before it. -/
theorem GapsDropped.skip {before piece rest : List Char}
    (hpiece : piece ∈ dropped)
    (hgaps : GapsDropped (before ++ (piece ++ rest))
      (utf8Length before + utf8Length piece) tokens) :
    GapsDropped (before ++ (piece ++ rest)) (utf8Length before) tokens := by
  cases tokens with
  | nil => trivial
  | cons token others =>
      obtain ⟨⟨gap, hgap, first, last, htext, hspan⟩, hothers⟩ := hgaps
      obtain ⟨hfirst, hstart⟩ := Span.mk.inj hspan
      have heq : before ++ piece = first :=
        eq_of_utf8Length_eq ((List.append_assoc _ _ _).trans htext)
          (by rw [utf8Length_append, hfirst])
      subst heq
      refine ⟨⟨piece ++ gap, append_mem_kstar hpiece hgap, before, last, ?_, ?_⟩,
        hothers⟩
      · rw [htext]
        simp
      · simp [hstart, Nat.add_assoc]

theorem Tiles.gapsDropped (htiles : Tiles afterDot offset chars tokens)
    (before : List Char) (hbefore : offset = utf8Length before) :
    GapsDropped (before ++ chars) offset tokens := by
  have hnil := Language.nil_mem_kstar dropped
  induction htiles generalizing before with
  | done =>
      subst hbefore
      exact ⟨⟨[], hnil, Span.covers_nil _ _⟩, trivial⟩
  | @skip _ _ piece rest _ hpiece _ _ ih =>
      subst hbefore
      refine .skip hpiece ?_
      simpa using ih (before ++ piece) (by simp)
  | @token _ _ piece rest _ _ _ _ _ _ ih =>
      subst hbefore
      refine ⟨⟨[], hnil, Span.covers_nil _ _⟩, ?_⟩
      simpa using ih (before ++ piece) (by simp)
  | @pair _ left right rest first second _ _ _ _ _ _ ih =>
      subst hbefore
      have hrest := ih (before ++ (left ++ '.' :: right)) (by simp)
      rw [utf8Length_member, ← Nat.add_assoc, ← Nat.add_assoc] at hrest
      refine ⟨⟨[], hnil, Span.covers_nil _ _⟩, ⟨[], hnil, ?_⟩, ⟨[], hnil, ?_⟩, ?_⟩
      · exact ⟨before ++ left, '.' :: right ++ rest, by simp, by simp⟩
      · exact ⟨before ++ left ++ ['.'], right ++ rest, by simp, by simp; rfl⟩
      · simpa using hrest

end Places

/-- The tokens are those of the one tiling of the text by longest matches. -/
structure MaximalMunch (chars : List Char) (tokens : List Token) : Prop where
  tiles : Tiles false 0 chars tokens
  /-- There is no other tiling. -/
  unique : ∀ others, Tiles false 0 chars others → others = tokens
  /-- The tokens stand in order and do not overlap. -/
  ordered : tokens.Pairwise fun left right =>
    left.span.stop ≤ right.span.start
  /-- They start and end between characters. -/
  inText : ∀ token ∈ tokens, token.span.InText chars
  /-- The last one, and no other, is the end of the text. -/
  ended : ∃ front, tokens = front ++ [⟨.eof, .point (utf8Length chars)⟩] ∧
    ∀ token ∈ front, token.kind ≠ .eof
  /-- Between them there are only blanks and comments. -/
  gaps : GapsDropped chars 0 tokens
  /-- What a token covers denotes its kind. -/
  denoted : ∀ token ∈ tokens, token.kind ≠ .eof →
    ∃ piece, token.span.Covers chars piece ∧ Denotes piece token.kind

theorem Tiles.maximalMunch {chars : List Char} {tokens : List Token}
    (htiles : Tiles false 0 chars tokens) : MaximalMunch chars tokens := by
  obtain ⟨front, hfront, hkinds⟩ := htiles.ended
  rw [Nat.zero_add] at hfront
  refine
    { tiles := htiles
      unique := fun others hothers => ?_
      ordered := htiles.ordered
      inText := fun token htoken => ?_
      ended := ⟨front, hfront, hkinds⟩
      gaps := htiles.gapsDropped [] rfl
      denoted := htiles.denoted [] rfl }
  · exact Except.ok.inj (hothers.lexAt.symm.trans htiles.lexAt)
  · by_cases hkind : token.kind = .eof
    · have hlast : token = ⟨.eof, .point (utf8Length chars)⟩ := by
        rw [hfront] at htoken
        rcases List.mem_append.mp htoken with htoken | htoken
        · exact absurd hkind (hkinds token htoken)
        · exact List.mem_singleton.mp htoken
      subst hlast
      have hcovers : Span.Covers chars (.point (utf8Length chars)) [] :=
        ⟨chars, [], by simp, rfl⟩
      exact hcovers.inText
    · obtain ⟨piece, hcovers, -⟩ := htiles.denoted [] rfl token htoken hkind
      exact hcovers.inText

/-- The lexer gives the tokens of the one tiling of a text by longest matches,
and fails on the texts that have none. -/
theorem lex_eq_ok_iff_maximalMunch (source : String) (tokens : List Token) :
    lex source = .ok tokens ↔ MaximalMunch source.toList tokens :=
  ⟨fun hlex => (tiles_of_lexAt hlex).maximalMunch,
    fun hmunch => hmunch.tiles.lexAt⟩

end ChainScript
