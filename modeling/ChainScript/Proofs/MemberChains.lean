import ChainScript.Proofs.Tiling

/-
Chains of member keys.

Behind a dot the lexer takes two keys with a dot between them at a time, as long
as two are left, and then the last one alone.  So how the keys of a chain pair
up depends on where the chain is entered, but their tokens do not, unless
something like an exponent follows the last key: alone that key is an integer
and a word follows it, but as the second key of a pair it has an exponent, which
a key must not have.
-/

namespace ChainScript

open scoped Computability

/-- No run of digits goes on here. -/
def EndsRun (rest : List Char) : Prop :=
  ∀ c ∈ rest.head?, isDigitOrSeparator c = false

/-- A point and a digit come next, so that a run of digits goes on to a float. -/
def PointAhead (rest : List Char) : Prop :=
  ∃ digit more, rest = '.' :: digit :: more ∧ digit.isDigit = true

section Scanning

variable {key next rest : List Char}

theorem endsRun_nil : EndsRun [] := by
  simp [EndsRun]

theorem endsRun_point (rest : List Char) : EndsRun ('.' :: rest) := by
  rintro c hc
  obtain rfl : '.' = c := by simpa using hc
  rfl

theorem exponent_endsRun {exponent : List Char}
    (hexponent : exponent ∈ exponentPattern) (rest : List Char) :
    EndsRun (exponent ++ rest) := by
  obtain ⟨mark, sign, digit, digits, rfl, hmark, -⟩ :=
    mem_exponentPattern.mp hexponent
  rintro c hc
  obtain rfl : mark = c := by simpa using hc
  rcases hmark with rfl | rfl <;> rfl

theorem scanExponent_ne_nil {exponent : List Char}
    (hexponent : exponent ∈ exponentPattern) (rest : List Char) :
    scanExponent (exponent ++ rest) ≠ [] := by
  obtain ⟨more, hmore⟩ := scanExponent_append rest hexponent
  obtain ⟨mark, sign, digit, digits, rfl, -⟩ := mem_exponentPattern.mp hexponent
  rw [hmore]
  exact List.cons_ne_nil _ _

/-- A run of digits is what its first character starts. -/
theorem EndsRun.takeWhile_dropWhile (hends : EndsRun rest)
    (hkey : key ∈ digitRun) :
    (key ++ rest).takeWhile isDigitOrSeparator = key ∧
      (key ++ rest).dropWhile isDigitOrSeparator = rest := by
  obtain ⟨htake, hdrop⟩ := takeWhile_digitRun rest hkey
  rw [htake, hdrop]
  cases rest with
  | nil => simp
  | cons c rest =>
      have hc : isDigitOrSeparator c = false := hends c rfl
      simp [hc]

/-- Runs of digits that start a text and end there are the same. -/
theorem EndsRun.unique {others : List Char} (hends : EndsRun rest)
    (hother : EndsRun others) (hkey : key ∈ digitRun) (hnext : next ∈ digitRun)
    (htexts : key ++ rest = next ++ others) : key = next ∧ rest = others := by
  obtain ⟨htake, hdrop⟩ := hends.takeWhile_dropWhile hkey
  obtain ⟨htakeOther, hdropOther⟩ := hother.takeWhile_dropWhile hnext
  rw [htexts] at htake hdrop
  exact ⟨htake.symm.trans htakeOther, hdrop.symm.trans hdropOther⟩

theorem exists_run {digit : Char} (hdigit : digit.isDigit = true)
    (more : List Char) :
    ∃ key rest, digit :: more = key ++ rest ∧ key ∈ digitRun ∧
      EndsRun rest := by
  refine ⟨_, (digit :: more).dropWhile isDigitOrSeparator,
    (List.takeWhile_append_dropWhile).symm, digitRun_takeWhile more hdigit, ?_⟩
  intro c hc
  have hnot := List.head?_dropWhile_not isDigitOrSeparator (digit :: more)
  rw [Option.mem_def.mp hc] at hnot
  exact hnot

/-- Behind a run there is another key of the chain, or the chain ends. -/
theorem PointAhead.exists_key (hpoint : PointAhead rest) :
    ∃ next after, rest = '.' :: (next ++ after) ∧ next ∈ digitRun ∧
      EndsRun after := by
  obtain ⟨digit, more, rfl, hdigit⟩ := hpoint
  obtain ⟨next, after, hmore, hnext, hends⟩ := exists_run hdigit more
  exact ⟨next, after, by rw [hmore], hnext, hends⟩

theorem pointAhead_key (hnext : next ∈ digitRun) (rest : List Char) :
    PointAhead ('.' :: (next ++ rest)) := by
  obtain ⟨digit, others, rfl, hdigit, -⟩ := mem_oneOf_mul_kstar.mp hnext
  exact ⟨digit, others ++ rest, rfl, hdigit⟩

/-- A key that the chain ends with is an integer. -/
theorem scan?_key (hkey : key ∈ digitRun) (hends : EndsRun rest)
    (hlast : ¬ PointAhead rest) :
    scan? (key ++ rest) = some ⟨.integer, key⟩ := by
  obtain ⟨htake, hdrop⟩ := hends.takeWhile_dropWhile hkey
  rw [scan?_digitRun rest hkey, scanNumber, htake, hdrop]
  split
  · next digit more =>
    split
    · next hdigit => exact absurd ⟨digit, more, rfl, hdigit⟩ hlast
    · rfl
  · rfl

/-- A key that another one follows is the start of a float. -/
theorem scan?_pair (hkey : key ∈ digitRun) (hnext : next ∈ digitRun)
    (hends : EndsRun rest) :
    scan? (key ++ '.' :: (next ++ rest)) =
      some ⟨.decimal, key ++ '.' :: (next ++ scanExponent rest)⟩ := by
  obtain ⟨htake, hdrop⟩ := hends.takeWhile_dropWhile hnext
  obtain ⟨digit, others, rfl, hdigit, -⟩ := mem_oneOf_mul_kstar.mp hnext
  have hnumber := scanNumber_point (others ++ rest) hkey hdigit
  rw [← List.cons_append, htake, hdrop] at hnumber
  rw [scan?_digitRun _ hkey, ← hnumber]

theorem scan?_dot (hkey : key ∈ digitRun) (rest : List Char) :
    scan? ('.' :: (key ++ rest)) = some ⟨.mark .dot, ['.']⟩ := by
  obtain ⟨digit, others, rfl, hdigit, -⟩ := mem_oneOf_mul_kstar.mp hkey
  have hne : digit ≠ '.' := by
    rintro rfl
    cases hdigit
  change (scanMark? ('.' :: digit :: (others ++ rest))).map _ = _
  simp [scanMark?, hne, Mark.spelling]

end Scanning

section Lexing

variable {afterDot : Bool} {offset : Nat} {key next rest : List Char}
  {tokens : List Token}

theorem lexAt_dot (hkey : key ∈ digitRun) (rest : List Char) :
    lexAt afterDot offset ('.' :: (key ++ rest)) =
      (lexAt true (offset + 1) (key ++ rest)).map
        (⟨.mark .dot, ⟨offset, offset + 1⟩⟩ :: ·) :=
  lexAt_lexeme afterDot offset ⟨.mark .dot, ['.']⟩ (scan?_dot hkey rest)

/-- The last key of a chain is an integer, if it is in range. -/
theorem lexAt_key {value : Int64} (hkey : key ∈ digitRun)
    (hends : EndsRun rest) (hlast : ¬ PointAhead rest)
    (hread : readInteger? key = some value) :
    lexAt afterDot offset (key ++ rest) =
      (lexAt false (offset + utf8Length key) rest).map
        (⟨.int value, ⟨offset, offset + utf8Length key⟩⟩ :: ·) := by
  rw [lexAt_lexeme _ _ ⟨.integer, key⟩ (scan?_key hkey hends hlast)]
  simp only [Lexeme.tokens, Lexeme.kind, hread]
  rfl

theorem of_lexAt_key (hkey : key ∈ digitRun) (hends : EndsRun rest)
    (hlast : ¬ PointAhead rest)
    (hlex : lexAt afterDot offset (key ++ rest) = .ok tokens) :
    ∃ value others, readInteger? key = some value ∧
      lexAt false (offset + utf8Length key) rest = .ok others ∧
      ⟨.int value, ⟨offset, offset + utf8Length key⟩⟩ :: others = tokens := by
  cases hread : readInteger? key with
  | none =>
      obtain ⟨own, _, hown, -⟩ := of_lexAt_lexeme ⟨.integer, key⟩
        (scan?_key hkey hends hlast) hlex
      simp [Lexeme.tokens, Lexeme.kind, hread, Except.map] at hown
  | some value =>
      rw [lexAt_key hkey hends hlast hread] at hlex
      obtain ⟨others, hothers, htokens⟩ := mapped_eq_ok_iff.mp hlex
      exact ⟨value, others, rfl, hothers, htokens⟩

theorem pair_mem_decimal (hkey : key ∈ digitRun) (hnext : next ∈ digitRun)
    (rest : List Char) :
    key ++ '.' :: (next ++ scanExponent rest) ∈ Shape.decimal.pattern := by
  refine mem_decimal_pattern.mpr ⟨key, hkey, next, hnext, _, ?_, rfl⟩
  rcases scanExponent_mem rest with hnone | hsome
  · exact .inl hnone
  · exact .inr hsome

/-- What starts like a pair of keys is one only if nothing like an exponent
follows and both keys are in range. -/
theorem of_memberPair (hkey : key ∈ digitRun)
    (hpair : memberPair (key ++ '.' :: (next ++ scanExponent rest)) offset =
      .ok tokens) :
    scanExponent rest = [] ∧ ∃ first second,
      readInteger? key = some first ∧ readInteger? next = some second := by
  obtain ⟨hmarkless, first, second, hfirst, hsecond, -⟩ :=
    of_memberPair_eq_ok hkey hpair
  have hplain : scanExponent rest = [] :=
    exponent_eq_nil (scanExponent_mem rest) hmarkless
  rw [hplain, List.append_nil] at hsecond
  exact ⟨hplain, first, second, hfirst, hsecond⟩

/-- Two keys behind a dot are taken together, if nothing like an exponent
follows and both are in range. -/
theorem lexAt_pair {first second : Int64} (hkey : key ∈ digitRun)
    (hnext : next ∈ digitRun) (hends : EndsRun rest)
    (hplain : scanExponent rest = []) (hfirst : readInteger? key = some first)
    (hsecond : readInteger? next = some second) :
    lexAt true offset (key ++ '.' :: (next ++ rest)) =
      (lexAt false (offset + utf8Length key + 1 + utf8Length next) rest).map
        (memberTokens key next first second offset ++ ·) := by
  have hscan := scan?_pair hkey hnext hends
  have hdecimal := pair_mem_decimal hkey hnext rest
  have htext : key ++ '.' :: (next ++ rest) = key ++ '.' :: next ++ rest := by
    simp
  rw [hplain, List.append_nil] at hscan hdecimal
  rw [htext] at hscan ⊢
  have htokens : memberPair (key ++ '.' :: next) offset =
      .ok (memberTokens key next first second offset) :=
    (memberPair_eq_ok_iff hdecimal).mpr ⟨key, next, first, second, rfl,
      denotes_of_readInteger? hkey hfirst,
      denotes_of_readInteger? hnext hsecond, rfl⟩
  rw [lexAt_lexeme _ _ ⟨.decimal, key ++ '.' :: next⟩ hscan, utf8Length_member,
    ← Nat.add_assoc, ← Nat.add_assoc]
  simp only [Lexeme.tokens, htokens, and_self, if_true]
  rfl

theorem of_lexAt_pair (hkey : key ∈ digitRun) (hnext : next ∈ digitRun)
    (hends : EndsRun rest)
    (hlex : lexAt true offset (key ++ '.' :: (next ++ rest)) = .ok tokens) :
    scanExponent rest = [] ∧ ∃ first second others,
      readInteger? key = some first ∧ readInteger? next = some second ∧
      lexAt false (offset + utf8Length key + 1 + utf8Length next) rest =
        .ok others ∧
      memberTokens key next first second offset ++ others = tokens := by
  have hpair : ∃ own, memberPair
      (key ++ '.' :: (next ++ scanExponent rest)) offset = .ok own := by
    obtain ⟨after, hafter⟩ := scanExponent_eq_append rest
    have hscan := scan?_pair hkey hnext hends
    have htext : key ++ '.' :: (next ++ rest) =
        key ++ '.' :: (next ++ scanExponent rest) ++ after := by
      simp [← hafter]
    rw [htext] at hscan hlex
    obtain ⟨own, _, hown, -⟩ := of_lexAt_lexeme ⟨.decimal, _⟩ hscan hlex
    exact ⟨own, by simpa [Lexeme.tokens] using hown⟩
  obtain ⟨own, hpair⟩ := hpair
  obtain ⟨hplain, first, second, hfirst, hsecond⟩ :=
    of_memberPair hkey hpair
  rw [lexAt_pair hkey hnext hends hplain hfirst hsecond] at hlex
  obtain ⟨others, hothers, htokens⟩ := mapped_eq_ok_iff.mp hlex
  exact ⟨hplain, first, second, others, hfirst, hsecond, hothers, htokens⟩

end Lexing

/-- An even number of member keys, each with a dot before it, and right behind
the last one something like an exponent. -/
inductive Powered : List Char → Prop
  | last {first second exponent rest : List Char} (hfirst : first ∈ digitRun)
      (hsecond : second ∈ digitRun) (hexponent : exponent ∈ exponentPattern) :
      Powered ('.' :: (first ++ '.' :: (second ++ (exponent ++ rest))))
  | more {first second rest : List Char} (hfirst : first ∈ digitRun)
      (hsecond : second ∈ digitRun) (hrest : Powered rest) :
      Powered ('.' :: (first ++ '.' :: (second ++ rest)))

namespace Powered

variable {afterDot : Bool} {offset : Nat} {key next rest chars : List Char}
  {tokens : List Token}

theorem exists_point (hpowered : Powered chars) :
    ∃ rest, chars = '.' :: rest ∧ PointAhead chars := by
  cases hpowered with
  | last hfirst _ _ => exact ⟨_, rfl, pointAhead_key hfirst _⟩
  | more hfirst _ _ => exact ⟨_, rfl, pointAhead_key hfirst _⟩

theorem endsRun (hpowered : Powered chars) : EndsRun chars := by
  obtain ⟨rest, rfl, -⟩ := hpowered.exists_point
  exact endsRun_point rest

/-- The second key of the last pair would have an exponent. -/
theorem lexAt_ne_ok (hpowered : Powered chars) :
    lexAt afterDot offset chars ≠ .ok tokens := by
  induction hpowered generalizing afterDot offset tokens with
  | @last first second exponent rest hfirst hsecond hexponent =>
      intro hlex
      rw [lexAt_dot hfirst] at hlex
      obtain ⟨others, hothers, -⟩ := mapped_eq_ok_iff.mp hlex
      exact scanExponent_ne_nil hexponent rest (of_lexAt_pair hfirst hsecond
        (exponent_endsRun hexponent rest) hothers).1
  | more hfirst hsecond hrest ih =>
      intro hlex
      rw [lexAt_dot hfirst] at hlex
      obtain ⟨others, hothers, -⟩ := mapped_eq_ok_iff.mp hlex
      obtain ⟨-, _, _, _, -, -, hlast, -⟩ :=
        of_lexAt_pair hfirst hsecond hrest.endsRun hothers
      exact ih hlast

/-- Two keys at least are in the chain. -/
theorem pointAhead (hends : EndsRun rest) (hkey : key ∈ digitRun)
    (hpowered : Powered ('.' :: (key ++ rest))) : PointAhead rest := by
  generalize hchars : '.' :: (key ++ rest) = chars at hpowered
  cases hpowered with
  | last hfirst hsecond _ =>
      obtain ⟨-, rfl⟩ := hends.unique (endsRun_point _) hkey hfirst
        (List.cons.inj hchars).2
      exact pointAhead_key hsecond _
  | more hfirst hsecond _ =>
      obtain ⟨-, rfl⟩ := hends.unique (endsRun_point _) hkey hfirst
        (List.cons.inj hchars).2
      exact pointAhead_key hsecond _

/-- Behind two keys of the chain the same question is asked again. -/
theorem pair_iff (hkey : key ∈ digitRun) (hnext : next ∈ digitRun)
    (hends : EndsRun rest) :
    Powered ('.' :: (key ++ '.' :: (next ++ rest))) ↔
      scanExponent rest ≠ [] ∨ Powered rest := by
  constructor
  · intro hpowered
    generalize hchars : '.' :: (key ++ '.' :: (next ++ rest)) = chars
      at hpowered
    have hpoint := endsRun_point (next ++ rest)
    cases hpowered with
    | last hfirst hsecond hexponent =>
        obtain ⟨-, hothers⟩ := hpoint.unique (endsRun_point _) hkey hfirst
          (List.cons.inj hchars).2
        obtain ⟨-, rfl⟩ := hends.unique (exponent_endsRun hexponent _) hnext
          hsecond (List.cons.inj hothers).2
        exact .inl (scanExponent_ne_nil hexponent _)
    | more hfirst hsecond hrest =>
        obtain ⟨-, hothers⟩ := hpoint.unique (endsRun_point _) hkey hfirst
          (List.cons.inj hchars).2
        obtain ⟨-, rfl⟩ := hends.unique hrest.endsRun hnext hsecond
          (List.cons.inj hothers).2
        exact .inr hrest
  · rintro (hpower | hrest)
    · obtain ⟨after, hafter⟩ := scanExponent_eq_append rest
      rw [hafter]
      exact .last hkey hnext ((scanExponent_mem rest).resolve_left hpower)
    · exact .more hkey hnext hrest

end Powered

/-- A chain that is entered at a key has the tokens that it has when this key is
taken alone, unless the pairs that it has then end before an exponent. -/
theorem lexAt_chain_iff {offset : Nat} {key rest : List Char} {value : Int64}
    {others : List Token} (hkey : key ∈ digitRun) (hends : EndsRun rest)
    (hread : readInteger? key = some value)
    (hlex : lexAt false (offset + utf8Length key) rest = .ok others) :
    lexAt true offset (key ++ rest) =
        .ok (⟨.int value, ⟨offset, offset + utf8Length key⟩⟩ :: others) ↔
      ¬ Powered ('.' :: (key ++ rest)) := by
  induction hlength : rest.length using Nat.strongRecOn
    generalizing offset key rest value others with
  | ind length ih =>
      subst hlength
      by_cases hpoint : PointAhead rest
      · obtain ⟨next, after, rfl, hnext, hafter⟩ := hpoint.exists_key
        rw [lexAt_dot hnext] at hlex
        obtain ⟨behind, hbehind, rfl⟩ := mapped_eq_ok_iff.mp hlex
        rw [Powered.pair_iff hkey hnext hafter]
        by_cases hplain : scanExponent after = []
        · rw [or_iff_right (not_not.mpr hplain)]
          by_cases hmore : PointAhead after
          · -- The key behind the next one was its partner, and is now alone.
            obtain ⟨third, last, rfl, hthird, hlast⟩ := hmore.exists_key
            obtain ⟨-, second, value', others, hsecond, hthirdRead, hothers,
              rfl⟩ := of_lexAt_pair hnext hthird hlast hbehind
            have hshorter : last.length <
                ('.' :: (next ++ '.' :: (third ++ last))).length := by
              simp only [List.length_cons, List.length_append]
              omega
            have hthirds := ih _ hshorter hthird hlast hthirdRead hothers rfl
            rw [lexAt_pair hkey hnext hafter hplain hread hsecond,
              lexAt_dot hthird, ← hthirds]
            cases lexAt true _ (third ++ last) <;>
              simp [Except.map, memberTokens]
          · obtain ⟨second, others, hsecond, hothers, rfl⟩ :=
              of_lexAt_key hnext hafter hmore hbehind
            rw [lexAt_pair hkey hnext hafter hplain hread hsecond]
            refine iff_of_true ?_ fun hpowered => ?_
            · rw [hothers]
              rfl
            · exact hmore hpowered.exists_point.choose_spec.2
        · refine iff_of_false (fun hpair => ?_) (by simp [hplain])
          exact hplain (of_lexAt_pair hkey hnext hafter hpair).1
      · refine iff_of_true ?_ fun hpowered => ?_
        · rw [lexAt_key hkey hends hpoint hread, hlex]
          rfl
        · exact hpoint (hpowered.pointAhead hends hkey)

end ChainScript
