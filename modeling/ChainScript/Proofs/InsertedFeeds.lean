import ChainScript.Proofs.LineLocality
import ChainScript.Proofs.MemberChains

/-
A line feed between two tokens.

The text up to a token has the tokens up to there.  So with a line feed behind
the token, a text has its old tokens and that of the line feed if what follows,
with no dot before it, has the tokens that it had.  It has not where a dot made
two member keys of what is a float otherwise.  And a line feed that parts two
keys makes the keys behind it pair up differently, which only an exponent
behind the last pair makes out.
-/

namespace ChainScript

/-- The text reads like a float from the offset on. -/
def FloatAt (chars : List Char) (offset : Nat) : Prop :=
  ∃ number ∈ Shape.decimal.pattern,
    Span.Covers chars ⟨offset, offset + utf8Length number⟩ number

section Floats

variable {offset : Nat} {key rest text chars : List Char} {tokens : List Token}

/-- Where a float starts, one is found. -/
theorem floatAt_append_iff (before chars : List Char) :
    FloatAt (before ++ chars) (utf8Length before) ↔
      ∃ text, scan? chars = some ⟨.decimal, text⟩ := by
  constructor
  · rintro ⟨number, hnumber, front, rest, htext, hspan⟩
    have hlength := (Span.mk.inj hspan).1
    obtain rfl := eq_of_utf8Length_eq htext hlength
    obtain rfl := List.append_cancel_left htext
    obtain ⟨whole, hwhole, _, hfraction, exponent, -, rfl⟩ :=
      mem_decimal_pattern.mp hnumber
    obtain ⟨digit, digits, rfl, hdigit, -⟩ := mem_oneOf_mul_kstar.mp hfraction
    have hnumber :=
      scanNumber_point (digits ++ (exponent ++ rest)) hwhole hdigit
    simp only [List.append_assoc, List.cons_append]
    exact ⟨_, (scan?_digitRun _ hwhole).trans (congrArg some hnumber)⟩
  · rintro ⟨text, hscan⟩
    obtain ⟨hdecimal, ⟨rest, rfl⟩, -⟩ := scan?_eq_some_iff.mp hscan
    exact ⟨text, hdecimal, Span.covers_append before text rest⟩

/-- A run of digits is the start of a float if a point and a digit follow. -/
theorem pointAhead_iff_scan? (hkey : key ∈ digitRun) (hends : EndsRun rest) :
    PointAhead rest ↔ ∃ text, scan? (key ++ rest) = some ⟨.decimal, text⟩ := by
  constructor
  · intro hpoint
    obtain ⟨next, after, rfl, hnext, hafter⟩ := hpoint.exists_key
    exact ⟨_, scan?_pair hkey hnext hafter⟩
  · rintro ⟨text, hscan⟩
    by_contra hlast
    rw [scan?_key hkey hends hlast] at hscan
    cases hscan

/-- With no dot before it, what starts with a float has a float token. -/
theorem float_of_lexAt (hscan : scan? chars = some ⟨.decimal, text⟩)
    (hlex : lexAt false offset chars = .ok tokens) :
    ∃ value span others, tokens = ⟨.float value, span⟩ :: others := by
  obtain ⟨rest, rfl⟩ := scan?_eq_append hscan
  obtain ⟨own, others, hown, -, rfl⟩ := of_lexAt_lexeme _ hscan hlex
  cases hread : readFloat? text with
  | none => simp [Lexeme.tokens, Lexeme.kind, hread, Except.map] at hown
  | some value =>
      simp only [Lexeme.tokens, Lexeme.kind, hread] at hown
      cases hown
      exact ⟨value, _, others, rfl⟩

/-- Behind a dot and without one, a text has the same tokens unless it reads
like a float where the first of them starts. -/
theorem lexAt_plain_iff {second : Token} {back : List Token}
    (before : List Char)
    (hlex : lexAt true (utf8Length before) chars = .ok (second :: back)) :
    lexAt false (utf8Length before) chars = .ok (second :: back) ↔
      ¬ FloatAt (before ++ chars) second.span.start := by
  induction chars using lexed_induction generalizing before with
  | nil =>
      cases hlex
      refine iff_of_true rfl fun hfloat => ?_
      obtain ⟨_, hscan⟩ := (floatAt_append_iff before []).mp hfloat
      cases hscan
  | skip piece rest hpiece hlongest ih =>
      rw [lexAt_skip _ _ hpiece hlongest, ← utf8Length_append] at hlex ⊢
      rw [← List.append_assoc]
      exact ih (before ++ piece) hlex
  | invalid c rest hblank hcomment hscan =>
      rw [lexAt_invalid _ _ hblank hcomment hscan] at hlex
      cases hlex
  | lexeme lexeme rest hscan ih =>
      obtain ⟨own, others, hown, -, htokens⟩ := of_lexAt_lexeme _ hscan hlex
      obtain ⟨shape, text⟩ := lexeme
      by_cases hdecimal : shape = .decimal
      · -- Behind the dot it is two keys, and it is a float without one.
        subst hdecimal
        rw [Lexeme.tokens, if_pos ⟨rfl, rfl⟩] at hown
        obtain ⟨left, right, first, _, -, -, -, rfl⟩ :=
          (memberPair_eq_ok_iff (scan?_sound hscan)).mp hown
        obtain ⟨rfl, -⟩ := List.cons.inj htokens
        refine iff_of_false (fun hplain => ?_) (not_not.mpr ?_)
        · obtain ⟨value, span, more, hfloat⟩ := float_of_lexAt hscan hplain
          cases hfloat
        · exact (floatAt_append_iff _ _).mpr ⟨text, hscan⟩
      · have hsame : Lexeme.tokens ⟨shape, text⟩ false (utf8Length before) =
            Lexeme.tokens ⟨shape, text⟩ true (utf8Length before) := by
          simp [Lexeme.tokens, hdecimal]
        rw [lexAt_lexeme _ _ _ hscan] at hlex ⊢
        rw [hsame]
        refine iff_of_true hlex fun hfloat => ?_
        rw [Lexeme.tokens, if_neg fun h => hdecimal h.1] at hown
        obtain ⟨kind, -, rfl⟩ := mapped_eq_ok_iff.mp hown
        obtain ⟨rfl, -⟩ := List.cons.inj htokens
        obtain ⟨_, hfound⟩ := (floatAt_append_iff _ _).mp hfloat
        rw [hscan] at hfound
        cases hfound
        exact hdecimal rfl

end Floats

/-- How a text goes on behind one of its tokens: as it is lexed, or within two
member keys and the dot between them. -/
inductive Resumes : Token → List Char → List Token → Prop
  | behind {first : Token} {after : List Char} {tokens : List Token}
      (hlex : lexAt (first.kind == .mark .dot) first.span.stop after =
        .ok tokens) :
      Resumes first after tokens
  | beforeDot {start stop : Nat} {left value : Int64} {key rest : List Char}
      {others : List Token} (hkey : key ∈ digitRun) (hends : EndsRun rest)
      (hread : readInteger? key = some value)
      (hlex : lexAt false (stop + 1 + utf8Length key) rest = .ok others) :
      Resumes ⟨.int left, ⟨start, stop⟩⟩ ('.' :: (key ++ rest))
        (⟨.mark .dot, ⟨stop, stop + 1⟩⟩ ::
          ⟨.int value, ⟨stop + 1, stop + 1 + utf8Length key⟩⟩ :: others)
  | behindDot {start stop : Nat} {value : Int64} {key rest : List Char}
      {others : List Token} (hkey : key ∈ digitRun) (hends : EndsRun rest)
      (hread : readInteger? key = some value)
      (hlex : lexAt false (stop + utf8Length key) rest = .ok others) :
      Resumes ⟨.mark .dot, ⟨start, stop⟩⟩ (key ++ rest)
        (⟨.int value, ⟨stop, stop + utf8Length key⟩⟩ :: others)

section Cuts

variable {afterDot : Bool} {offset : Nat} {chars after : List Char}
  {tokens back : List Token} {first second : Token}

/-- A longest match that ends in digits has all of them. -/
theorem endsRun_of_longest {left right rest : List Char}
    (hleft : left ∈ digitRun) (hright : right ∈ digitRun)
    (hlongest : Longest (left ++ '.' :: right)
      (left ++ '.' :: right ++ rest)) : EndsRun rest := by
  intro c hc
  by_contra hgoesOn
  have hmore : isDigitOrSeparator c = true := by simpa using hgoesOn
  obtain ⟨others, rfl⟩ := List.head?_eq_some_iff.mp hc
  obtain ⟨digit, digits, rfl, hdigit, hdigits⟩ := mem_oneOf_mul_kstar.mp hright
  have hlonger : digit :: (digits ++ [c]) ∈ digitRun :=
    mem_oneOf_mul_kstar.mpr ⟨digit, digits ++ [c], rfl, hdigit, by
      simpa [or_imp, forall_and] using ⟨hdigits, hmore⟩⟩
  have hmatches : Matches (left ++ '.' :: digit :: (digits ++ [c])) :=
    .inr ⟨.decimal, mem_decimal_pattern.mpr
      ⟨left, hleft, _, hlonger, [], .inl rfl, by simp⟩⟩
  have hle := hlongest.longest _ ⟨others, by simp⟩ hmatches
  simp only [List.length_append, List.length_cons, List.length_nil] at hle
  omega

/-- Two member keys are cut at the dot between them, or behind both. -/
theorem cut_pair {left right rest : List Char} {value next : Int64}
    {front more : List Token} (hleft : Denotes left (.int value))
    (hright : Denotes right (.int next))
    (hdecimal : left ++ '.' :: right ∈ Shape.decimal.pattern)
    (hlongest : Longest (left ++ '.' :: right) (left ++ '.' :: right ++ rest))
    (hlex : lexAt false (offset + utf8Length (left ++ '.' :: right)) rest =
      .ok tokens)
    (hpair : memberTokens left right value next offset =
      front ++ first :: more) :
    ∃ before after, left ++ '.' :: right ++ rest = before ++ after ∧
      first.span.stop = offset + utf8Length before ∧
      Tiles true offset before
        (front ++ [first, ⟨.eof, .point first.span.stop⟩]) ∧
      Resumes first after (more ++ tokens) := by
  obtain ⟨hleftRun, hleftRead⟩ := hleft.readInteger?
  obtain ⟨hrightRun, hrightRead⟩ := hright.readInteger?
  have hends := endsRun_of_longest hleftRun hrightRun hlongest
  have hlength : offset + utf8Length (left ++ '.' :: right) =
      offset + utf8Length left + 1 + utf8Length right := by
    rw [utf8Length_member]
    omega
  match front, hpair with
  | [], hpair =>
      simp only [memberTokens, List.nil_append, List.cons.injEq] at hpair
      obtain ⟨rfl, rfl⟩ := hpair
      rw [hlength] at hlex
      have hkey : lexAt true offset (left ++ []) = _ :=
        lexAt_key hleftRun endsRun_nil (by simp [PointAhead]) hleftRead
      rw [List.append_nil] at hkey
      exact ⟨left, '.' :: (right ++ rest), by simp, rfl, tiles_of_lexAt hkey,
        .beforeDot hrightRun hends hrightRead hlex⟩
  | [_], hpair =>
      simp only [memberTokens, List.cons_append, List.nil_append,
        List.cons.injEq] at hpair
      obtain ⟨rfl, rfl, rfl⟩ := hpair
      rw [hlength] at hlex
      exact ⟨left ++ ['.'], right ++ rest, by simp, by simp; rfl,
        tiles_of_lexAt (lexAt_key hleftRun (endsRun_point [])
          (by simp [PointAhead]) hleftRead),
        .behindDot hrightRun hends hrightRead hlex⟩
  | [_, _], hpair =>
      simp only [memberTokens, List.cons_append, List.nil_append,
        List.cons.injEq] at hpair
      obtain ⟨rfl, rfl, rfl, rfl⟩ := hpair
      have halone := hlongest.of_prefix List.nil_prefix
      have htiles : Tiles true offset (left ++ '.' :: right ++ []) _ :=
        .pair hdecimal halone hleft hright .done
      rw [hlength, List.append_nil] at htiles
      rw [hlength] at hlex
      exact ⟨left ++ '.' :: right, rest, rfl, hlength.symm, htiles,
        .behind hlex⟩
  | _ :: _ :: _ :: others, hpair =>
      simp [memberTokens] at hpair

/-- A text is cut behind any token but the last.  What comes before has the
tokens up to this one, and what comes after goes on with the others. -/
theorem Tiles.cut (htiles : Tiles afterDot offset chars tokens)
    (front : List Token) (htokens : tokens = front ++ first :: back)
    (hback : back ≠ []) :
    ∃ before after, chars = before ++ after ∧
      first.span.stop = offset + utf8Length before ∧
      Tiles afterDot offset before
        (front ++ [first, ⟨.eof, .point first.span.stop⟩]) ∧
      Resumes first after back := by
  induction htiles generalizing front with
  | done =>
      cases front with
      | nil => exact absurd (List.cons.inj htokens).2.symm hback
      | cons token front => simp at htokens
  | @skip _ offset piece rest tokens hpiece hlongest _ ih =>
      obtain ⟨before, after, rfl, hstop, hbefore, hresumes⟩ :=
        ih front htokens
      exact ⟨piece ++ before, after, by simp, by simp [hstop, Nat.add_assoc],
        .skip hpiece (hlongest.of_prefix (List.prefix_append _ _)) hbefore,
        hresumes⟩
  | @token _ offset piece rest kind tokens hdenotes hlongest hsingle hrest ih =>
      cases front with
      | nil =>
          obtain ⟨rfl, rfl⟩ := List.cons.inj htokens
          have halone := hlongest.of_prefix List.nil_prefix
          refine ⟨piece, rest, rfl, rfl, ?_, .behind hrest.lexAt⟩
          simpa using Tiles.token hdenotes halone hsingle .done
      | cons token front =>
          simp only [List.cons_append, List.cons.injEq] at htokens
          obtain ⟨rfl, htokens⟩ := htokens
          obtain ⟨before, after, rfl, hstop, hbefore, hresumes⟩ :=
            ih front htokens
          exact ⟨piece ++ before, after, by simp,
            by simp [hstop, Nat.add_assoc],
            .token hdenotes (hlongest.of_prefix (List.prefix_append _ _))
              hsingle hbefore, hresumes⟩
  | @pair offset left right rest value next tokens hdecimal hlongest hleft
      hright hrest ih =>
      have hbehind : ∀ more,
          front = memberTokens left right value next offset ++ more →
          tokens = more ++ first :: back →
          ∃ before after, left ++ '.' :: right ++ rest = before ++ after ∧
            first.span.stop = offset + utf8Length before ∧
            Tiles true offset before
              (front ++ [first, ⟨.eof, .point first.span.stop⟩]) ∧
            Resumes first after back := by
        rintro more rfl hmore
        obtain ⟨before, after, rfl, hstop, hbefore, hresumes⟩ := ih more hmore
        have hpair : Tiles true offset (left ++ '.' :: right ++ before) _ :=
          .pair hdecimal (hlongest.of_prefix (List.prefix_append _ _)) hleft
            hright hbefore
        rw [← List.append_assoc] at hpair
        refine ⟨left ++ '.' :: right ++ before, after, by simp, ?_, hpair,
          hresumes⟩
        rw [hstop, utf8Length_append (left ++ '.' :: right), Nat.add_assoc]
      rcases List.append_eq_append_iff.mp htokens with
        ⟨more, hfront, hmore⟩ | ⟨_ | ⟨token, more⟩, hpair, hmore⟩
      · exact hbehind more hfront hmore
      · exact hbehind [] (by simpa using hpair.symm) hmore.symm
      · obtain ⟨rfl, rfl⟩ := List.cons.inj hmore
        exact cut_pair hleft hright hdecimal hlongest hrest.lexAt hpair

/-- Without the dot before it, a text goes on as behind the token, unless this
makes two of its keys a float or leaves a key without its partner. -/
theorem Resumes.lexAt_iff (hresumes : Resumes first after (second :: back))
    (before : List Char) (hstop : first.span.stop = utf8Length before) :
    lexAt false first.span.stop after = .ok (second :: back) ↔
      ¬ (first.kind = .mark .dot ∧ FloatAt (before ++ after) second.span.start ∨
        Powered after) := by
  generalize htokens : second :: back = tokens at hresumes
  cases hresumes with
  | behind hlex =>
      subst htokens
      by_cases hdot : first.kind = .mark .dot
      · rw [hdot, hstop] at hlex
        rw [hstop, lexAt_plain_iff before hlex]
        have hpowered : ¬ Powered after := fun hpowered =>
          hpowered.lexAt_ne_ok hlex
        simp [hdot, hpowered]
      · have hplain : (first.kind == .mark .dot) = false := by simpa using hdot
        rw [hplain] at hlex
        refine iff_of_true hlex ?_
        rintro (⟨hkind, -⟩ | hpowered)
        · exact hdot hkind
        · exact hpowered.lexAt_ne_ok hlex
  | @beforeDot start stop left value key rest others hkey hends hread hlex =>
      cases htokens
      have hchain := lexAt_chain_iff hkey hends hread hlex
      rw [lexAt_dot hkey, or_iff_right (fun hdot => nomatch hdot.1), ← hchain]
      cases lexAt true (stop + 1) (key ++ rest) <;> simp [Except.map]
  | @behindDot start stop value key rest others hkey hends hread hlex =>
      cases htokens
      have hdigit : ¬ Powered (key ++ rest) := by
        rintro hpowered
        obtain ⟨more, hmore, -⟩ := hpowered.exists_point
        obtain ⟨digit, digits, rfl, hdigit, -⟩ := mem_oneOf_mul_kstar.mp hkey
        obtain ⟨rfl, -⟩ := List.cons.inj hmore
        cases hdigit
      rw [or_iff_left hdigit, and_iff_right rfl]
      change stop = _ at hstop
      dsimp only
      rw [hstop, floatAt_append_iff, ← pointAhead_iff_scan? hkey hends]
      by_cases hpoint : PointAhead rest
      · refine iff_of_false (fun hplain => ?_) (not_not.mpr hpoint)
        obtain ⟨text, hscan⟩ := (pointAhead_iff_scan? hkey hends).mp hpoint
        obtain ⟨value, span, more, hfloat⟩ := float_of_lexAt hscan hplain
        cases hfloat
      · rw [hstop] at hlex
        refine iff_of_true ?_ hpoint
        rw [lexAt_key hkey hends hpoint hread, hlex]
        rfl

end Cuts

/-- Places that move with a text tell where they were. -/
theorem lexAt_add_eq_ok_iff {afterDot : Bool} {offset bytes : Nat}
    {chars : List Char} {tokens : List Token} :
    lexAt afterDot (offset + bytes) chars =
        .ok (tokens.map (·.shift bytes)) ↔
      lexAt afterDot offset chars = .ok tokens := by
  have hinjective : Function.Injective (Token.shift · bytes) := by
    rintro ⟨kind, start, stop⟩ ⟨kind', start', stop'⟩ hsame
    simpa [Token.shift, Span.shift] using hsame
  rw [lexAt_add]
  cases lexAt afterDot offset chars with
  | error error => simp [Except.map, Except.mapError]
  | ok others =>
      simp [Except.map, Except.mapError, hinjective.list_map.eq_iff]

/-- With a line feed right behind one of its tokens, a text has its old tokens
and that of the line feed, those behind it moved by a byte, unless the token is
a dot and the text reads like a float where the next one starts, or an even
number of member keys follow, the last of them with an exponent. -/
theorem line_feed_between_tokens_iff {source : String}
    {front back : List Token} {first second : Token}
    (hlex : lex source = .ok (front ++ first :: second :: back)) :
    ∃ before after, source.toList = before ++ after ∧
      first.span.stop = utf8Length before ∧
      (lex (String.ofList (before ++ '\n' :: after)) =
          .ok (front ++ first :: feedToken first.span.stop ::
            (second :: back).map (·.shift 1)) ↔
        ¬ (first.kind = .mark .dot ∧
            FloatAt source.toList second.span.start ∨
          Powered after)) := by
  obtain ⟨before, after, hsource, hstop, hbefore, hresumes⟩ :=
    (tiles_of_lexAt hlex).cut front rfl (List.cons_ne_nil _ _)
  rw [Nat.zero_add] at hstop
  refine ⟨before, after, hsource, hstop, ?_⟩
  obtain ⟨body, hline, hall⟩ := lexAt_line false 0 before after
  have hbody : body = .ok (front ++ [first]) := by
    rw [hbefore.lexAt, Nat.zero_add, ← hstop] at hline
    cases body with
    | error error => cases hline
    | ok own =>
        have hown : front ++ [first] ++ [⟨.eof, .point first.span.stop⟩] =
            own ++ [⟨.eof, .point first.span.stop⟩] := by
          simpa [Except.map] using hline
        rw [List.append_cancel_right hown]
  rw [hsource, ← hresumes.lexAt_iff before hstop, ← lexAt_add_eq_ok_iff,
    lex_eq_lexAt, String.toList_ofList, hall, hbody, Nat.zero_add, ← hstop]
  cases lexAt false (first.span.stop + 1) after with
  | error error => simp [Except.bind, Except.map]
  | ok others => simp [Except.bind, Except.map]

/-- The tokens of `a.0.1`. -/
def keyedTokens : List Token :=
  [⟨.ident "a", ⟨0, 1⟩⟩, ⟨.mark .dot, ⟨1, 2⟩⟩, ⟨.int 0, ⟨2, 3⟩⟩,
    ⟨.mark .dot, ⟨3, 4⟩⟩, ⟨.int 1, ⟨4, 5⟩⟩, ⟨.eof, .point 5⟩]

theorem line_feed_between_tokens_iff_keys :
    lex "a.0.1" = .ok keyedTokens ∧
      lex "a.0\n.1" = .ok (keyedTokens.take 3 ++
        feedToken 3 :: (keyedTokens.drop 3).map (·.shift 1)) := by
  have hlex : lex "a.0.1" = .ok (keyedTokens.take 2 ++ ⟨.int 0, ⟨2, 3⟩⟩ ::
      ⟨.mark .dot, ⟨3, 4⟩⟩ :: keyedTokens.drop 4) := by
    decide +kernel
  obtain ⟨before, after, hsource, hstop, hsame⟩ :=
    line_feed_between_tokens_iff hlex
  have hsource : ['a', '.', '0'] ++ ['.', '1'] = before ++ after := hsource
  obtain rfl := eq_of_utf8Length_eq hsource hstop
  obtain rfl := List.append_cancel_left hsource
  refine ⟨hlex, hsame.mpr ?_⟩
  rintro (⟨hdot, -⟩ | hpowered)
  · cases hdot
  · have hkey : ['1'] ∈ digitRun :=
      mem_oneOf_mul_kstar.mpr ⟨'1', [], rfl, rfl, by simp⟩
    obtain ⟨_, _, hnil, -⟩ := Powered.pointAhead endsRun_nil hkey hpowered
    cases hnil

/-- A line feed behind the dot joins the two keys, and one behind the first key
pairs the others up so that there is an exponent in a pair. -/
theorem keys_change_behind_line_feed :
    lex "a.0.1" = .ok keyedTokens ∧
      lex "a.\n0.1" ≠ .ok (keyedTokens.take 2 ++
        feedToken 2 :: (keyedTokens.drop 2).map (·.shift 1)) ∧
      (∃ tokens, lex "a.0.1.2e5" = .ok tokens) ∧
      lex "a.0\n.1.2e5" = .error ⟨⟨5, 10⟩, .invalidNumber "1.2e5"⟩ := by
  refine ⟨by decide +kernel, by decide +kernel, ⟨_, rfl⟩, by decide +kernel⟩

end ChainScript
