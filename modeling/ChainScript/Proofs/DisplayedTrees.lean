import ChainScript.Proofs.LexedTexts

/-
The syntax tree that the text of a value spells.

A value that is made of null, truth values, whole numbers, strings and arrays is
written as a literal.  An entry is written without its key if the position of
the entry is the one that an array built from the text would hand out.  What is
inside an array is written deeper, so the text is the same at all depths that
are large enough.
-/

namespace ChainScript

/-- A key whose text reads as the same key: a label that is not a keyword, or a
position that a literal can spell. -/
def Key.Plain : Key → Prop
  | .badge name => Keyword.ofSpelling? name = none
  | .index position => position.toNat ≤ maxInteger

instance (key : Key) : Decidable key.Plain :=
  match key with
  | .badge name => inferInstanceAs (Decidable (Keyword.ofSpelling? name = none))
  | .index position => inferInstanceAs (Decidable (position.toNat ≤ maxInteger))

theorem Key.Plain.spelled {key : Key} (hplain : key.Plain) : key.Spelled := by
  cases key with
  | badge name => trivial
  | index position => exact hplain

/-- A value whose text reads as a literal.  The smallest whole number is none,
since a literal has no sign of its own. -/
inductive Heap.Plain (heap : Heap) : Value → Prop where
  | null : heap.Plain .null
  | bool (value : Bool) : heap.Plain (.bool value)
  | int {value : Int64} (hmin : value ≠ Int64.minValue) :
      heap.Plain (.int value)
  | str (text : String) : heap.Plain (.str text)
  | array {chain : Chain}
      (hkeys : ∀ key ∈ (heap.flatten chain).keys, key.Plain)
      (hvalues : ∀ entry ∈ (heap.flatten chain).entries, heap.Plain entry.2) :
      heap.Plain (.array chain)

/-- What can be written as a tree: a value, or entries and the position that the
next appended value would get in front of them. -/
@[reducible] def Category.Shown : Category → Type
  | .expr => Value
  | .entries => Nat × List (Key × Value)
  | _ => Unit

/-- The key has to be written where the next position is `expected`. -/
def Key.Leads (expected : Nat) : Key → Prop
  | .badge _ => True
  | .index position => position.toNat ≠ expected

/-- The tree is the literal that shows a value, or the entries of a literal. -/
def Tree.Shows (heap : Heap) :
    {category : Category} → Tree category → category.Shown → Prop
  | _, .null, value => value = .null
  | _, .bool truth, value => value = .bool truth
  | _, .int number, value => 0 ≤ number.toInt ∧ value = .int number
  | _, .unary op operand, value =>
      ∃ number : Int64, op = .neg ∧ operand = .int number ∧
        0 < number.toInt ∧ value = .int (-number)
  | _, .str text, value => value = .str text
  | _, .array entries, value =>
      ∃ chain, value = .array chain ∧
        entries.Shows heap (0, (heap.flatten chain).entries)
  | _, .noEntries, shown => shown.2 = []
  | _, .item first others, shown =>
      ∃ position value rest, shown.2 = (.index position, value) :: rest ∧
        position.toNat = shown.1 ∧ first.Shows heap value ∧
        others.Shows heap (expectedAfter shown.1 (.index position), rest)
  | _, .keyed key first others, shown =>
      ∃ value rest, shown.2 = (key.key, value) :: rest ∧
        key.key.Plain ∧ key.key.Leads shown.1 ∧ first.Shows heap value ∧
        others.Shows heap (expectedAfter shown.1 key.key, rest)
  | _, _, _ => False

/-- All whole numbers but the smallest one have a negation. -/
theorem toInt_neg_of_ne_minValue {number : Int64}
    (hmin : number ≠ Int64.minValue) : (-number).toInt = -number.toInt := by
  have hlow := number.le_toInt
  have hhigh := number.toInt_lt
  have hne : number.toInt ≠ Int64.minValue.toInt :=
    fun heq => hmin (Int64.toInt_inj.mp heq)
  rw [Int64.toInt_minValue] at hne
  rw [Int64.toInt_neg, Int.bmod_eq_of_le] <;> omega

section Existence

variable {heap : Heap}

theorem exists_shows_entries {entries : List (Key × Value)}
    (hkeys : ∀ key ∈ entries.map Prod.fst, key.Plain)
    (hvalues : ∀ entry ∈ entries, ∃ tree : Tree .expr, tree.Shows heap entry.2)
    (expected : Nat) :
    ∃ tree : Tree .entries, tree.Shows heap (expected, entries) := by
  induction entries generalizing expected with
  | nil => exact ⟨.noEntries, rfl⟩
  | cons entry rest ih =>
      obtain ⟨key, value⟩ := entry
      obtain ⟨hkey, hkeys⟩ := List.forall_mem_cons.mp hkeys
      obtain ⟨⟨first, hfirst⟩, hvalues⟩ := List.forall_mem_cons.mp hvalues
      obtain ⟨others, hothers⟩ := ih hkeys hvalues (expectedAfter expected key)
      have hkeyed : key.Leads expected →
          (Tree.keyed ⟨key, hkey.spelled⟩ first others).Shows heap
            (expected, (key, value) :: rest) :=
        fun hleads => ⟨value, rest, rfl, hkey, hleads, hfirst, hothers⟩
      cases key with
      | badge name => exact ⟨_, hkeyed trivial⟩
      | index position =>
          by_cases hnext : position.toNat = expected
          · exact ⟨.item first others, position, value, rest, rfl, hnext,
              hfirst, hothers⟩
          · exact ⟨_, hkeyed hnext⟩

/-- Every plain value is shown by a literal. -/
theorem Heap.Plain.exists_shows {value : Value} (hplain : heap.Plain value) :
    ∃ tree : Tree .expr, tree.Shows heap value := by
  induction hplain with
  | null => exact ⟨.null, rfl⟩
  | bool value => exact ⟨.bool value, rfl⟩
  | @int value hmin =>
      by_cases hsign : 0 ≤ value.toInt
      · exact ⟨.int value, hsign, rfl⟩
      · have hneg := toInt_neg_of_ne_minValue hmin
        exact ⟨.unary .neg (.int (-value)), -value, rfl, rfl, by omega,
          by rw [Int64.neg_neg]⟩
  | str text => exact ⟨.str text, rfl⟩
  | array hkeys _ hvalues =>
      obtain ⟨entries, hentries⟩ := exists_shows_entries hkeys hvalues 0
      exact ⟨.array entries, _, rfl, hentries⟩

end Existence

/-- Display writes the text at all depths that are large enough. -/
def Heap.WritesAs (heap : Heap) (nested : Bool) (value : Value)
    (text : String) : Prop :=
  ∃ enough, ∀ depth, enough ≤ depth →
    heap.textTo? depth nested value = some text

/-- The same for the entries of an array. -/
def Heap.WritesEntries (heap : Heap) (expected : Nat)
    (entries : List (Key × Value)) (texts : List String) : Prop :=
  ∃ enough, ∀ depth, enough ≤ depth →
    entryTexts? (heap.textTo? depth true) expected entries = some texts

/-- The text in front of another one is cut into the tokens of the tree. -/
def SpellsTree (text : List Char) (write : List Token → List Token) : Prop :=
  ∀ chars more, Closes chars → LexesTo chars more →
    LexesTo (text ++ chars) (write more)

/-- What the text of a value, or of entries, is cut into. -/
@[reducible] def Category.Spelled (heap : Heap) :
    (category : Category) → Tree category → category.Shown → Prop
  | .expr, tree, value =>
      ∃ text, heap.WritesAs true value text ∧
        SpellsTree text.toList tree.write
  | .entries, tree, shown =>
      ∃ texts, heap.WritesEntries shown.1 shown.2 texts ∧
        texts.isEmpty = tree.isEmpty ∧
        SpellsTree (", ".intercalate texts).toList tree.write
  | _, _, _ => True

section Spelling

variable {heap : Heap}

theorem Heap.writesAs_leaf {value : Value} {text : String}
    (hleaf : ∀ depth, heap.textTo? depth true value = some text) :
    heap.WritesAs true value text :=
  ⟨0, fun depth _ => hleaf depth⟩

theorem spellsTree_word {word : String} {kind : TokenKind}
    (hplain : isPlainLabel word.toList = true) (hkind : wordKind word = kind) :
    SpellsTree word.toList (.of kind :: ·) :=
  fun _ _ hcloses hlexes => hkind ▸ hlexes.word hplain hcloses

theorem spellsTree_natural {number : Int64} (hsign : 0 ≤ number.toInt) :
    SpellsTree (toString number.toInt).toList (.of (.int number) :: ·) := by
  intro chars more hcloses hlexes
  have hhigh := number.toInt_lt
  have hrange : number.toInt.toNat ≤ maxInteger := by
    unfold maxInteger
    omega
  have hnumber : Int64.ofNat number.toInt.toNat = number := by
    rw [← Int64.ofInt_eq_ofNat, Int.toNat_of_nonneg hsign, Int64.ofInt_toInt]
  have hlexed := hlexes.digits hrange hcloses
  rw [hnumber] at hlexed
  rw [Int.toString_eq_repr, Int.repr_eq_if, if_pos hsign]
  simpa [Nat.repr] using hlexed

theorem spellsTree_negative {number : Int64} (hsign : 0 < number.toInt) :
    SpellsTree (toString (-number).toInt).toList
      (Tree.unary .neg (.int number)).write := by
  intro chars more hcloses hlexes
  have hmin : number ≠ Int64.minValue := by
    rintro rfl
    exact absurd hsign (by decide)
  have hneg := toInt_neg_of_ne_minValue hmin
  have hdigits := spellsTree_natural (Int.le_of_lt hsign) chars more hcloses
    hlexes
  rw [Int.toString_eq_repr, Int.repr_eq_if, if_pos (by omega)] at hdigits
  rw [Int.toString_eq_repr, Int.repr_eq_if, if_neg (by omega), hneg,
    Int.neg_neg, String.toList_append]
  exact .mark '-' .minus rfl hdigits

theorem isName_eq_isPlainLabel {name : String}
    (hname : Keyword.ofSpelling? name = none) :
    isName name = isPlainLabel name.toList := by
  unfold isName isPlainLabel
  rw [hname]
  cases name.toList with
  | nil => rfl
  | cons first others => exact Bool.and_true _

/-- The text in front of a value, with the colon after a key that is written. -/
theorem Key.Plain.lexes_lead {key : Key} {expected : Nat}
    (hplain : key.Plain) (hleads : key.Leads expected) {chars : List Char}
    {tokens : List Token} (hlexes : LexesTo chars tokens) :
    LexesTo ((entryLead expected key).toList ++ chars)
      (.of key.token :: .of (.mark .colon) :: tokens) := by
  have hcolon : LexesTo (':' :: ' ' :: chars) (.of (.mark .colon) :: tokens) :=
    .mark ':' .colon rfl hlexes.blank
  have hcloses := closes_colon (' ' :: chars)
  cases key with
  | badge name =>
      have hkind : wordKind name = .ident name := by
        simp only [wordKind, show Keyword.ofSpelling? name = none from hplain]
      rw [entryLead, labelText, Key.token, isName_eq_isPlainLabel hplain]
      split
      · next hlabel =>
          have hword := hcolon.word hlabel hcloses
          simpa [hkind] using hword
      · simpa using hcolon.quoted name
  | index position =>
      have hposition : Int64.ofNat position.toNat = position.toInt64 := by
        rw [← UInt64.toInt64_ofNat', UInt64.ofNat_toNat]
      have hdigits := hcolon.digits hplain hcloses
      rw [entryLead, if_neg hleads, Key.token, ← hposition]
      simpa [Nat.repr] using hdigits

theorem Heap.WritesEntries.cons {key : Key} {value : Value}
    {rest : List (Key × Value)} {expected : Nat} {text : String}
    {texts : List String} (hvalue : heap.WritesAs true value text)
    (hrest : heap.WritesEntries (expectedAfter expected key) rest texts) :
    heap.WritesEntries expected ((key, value) :: rest)
      ((entryLead expected key ++ text) :: texts) := by
  obtain ⟨enough, hvalue⟩ := hvalue
  obtain ⟨enough', hrest⟩ := hrest
  refine ⟨max enough enough', fun depth hdepth => ?_⟩
  have hfirst := hvalue depth (Nat.le_trans (Nat.le_max_left _ _) hdepth)
  have hothers := hrest depth (Nat.le_trans (Nat.le_max_right _ _) hdepth)
  simp [entryTexts?, hfirst, hothers]

theorem Heap.WritesEntries.array {chain : Chain} {texts : List String}
    (htexts : heap.WritesEntries 0 (heap.flatten chain).entries texts)
    (nested : Bool) :
    heap.WritesAs nested (.array chain)
      ("[" ++ ", ".intercalate texts ++ "]") := by
  obtain ⟨enough, htexts⟩ := htexts
  refine ⟨enough + 1, fun depth hdepth => ?_⟩
  obtain ⟨less, rfl⟩ : ∃ less, depth = less + 1 := ⟨depth - 1, by omega⟩
  simp [Heap.textTo?, htexts less (Nat.le_of_succ_le_succ hdepth)]

theorem SpellsTree.keyed {key : Key} {expected : Nat} {text : String}
    {write : List Token → List Token} (hplain : key.Plain)
    (hleads : key.Leads expected) (hvalue : SpellsTree text.toList write) :
    SpellsTree (entryLead expected key ++ text).toList fun more =>
      .of key.token :: .of (.mark .colon) :: write more := by
  intro chars more hcloses hlexes
  have hlead := hplain.lexes_lead hleads (hvalue chars more hcloses hlexes)
  rwa [String.toList_append, List.append_assoc]

/-- The text of an entry goes on with the other entries, if there are any. -/
theorem SpellsTree.entry {first : String} {write : List Token → List Token}
    {texts : List String} {others : Tree .entries}
    (hfirst : SpellsTree first.toList write)
    (hempty : texts.isEmpty = others.isEmpty)
    (hothers : SpellsTree (", ".intercalate texts).toList others.write) :
    SpellsTree (", ".intercalate (first :: texts)).toList
      fun more => write
        (preceded (!others.isEmpty) (.mark .comma) (others.write more)) := by
  intro chars more hcloses hlexes
  have hrest := hothers chars more hcloses hlexes
  rw [← hempty]
  cases texts with
  | nil =>
      have hnothing : LexesTo chars (others.write more) := by
        simpa using hrest
      simpa [preceded] using hfirst _ _ hcloses hnothing
  | cons second texts =>
      have hcomma := LexesTo.mark ',' .comma rfl hrest.blank
      have hspelled := hfirst _ _ (closes_comma _) hcomma
      simpa [preceded, String.intercalate_cons_cons] using hspelled

theorem SpellsTree.array {texts : String} {write : List Token → List Token}
    (hentries : SpellsTree texts.toList write) :
    SpellsTree ("[" ++ texts ++ "]").toList
      fun more => .of (.mark .openBracket) ::
        write (.of (.mark .closeBracket) :: more) := by
  intro chars more _ hlexes
  have hclosed := LexesTo.mark ']' .closeBracket rfl hlexes
  have hinside := hentries _ _ (closes_bracket chars) hclosed
  simpa using LexesTo.mark '[' .openBracket rfl hinside

end Spelling

/-- The text of a value is cut into the tokens of the literal that shows the
value. -/
theorem Tree.Shows.spelled {heap : Heap} {category : Category}
    {tree : Tree category} {shown : category.Shown}
    (hshows : tree.Shows heap shown) : category.Spelled heap tree shown := by
  induction tree with
  | null =>
      cases hshows
      exact ⟨"null", Heap.writesAs_leaf fun _ => by simp [Heap.textTo?],
        spellsTree_word (by decide) (by decide)⟩
  | bool truth =>
      cases hshows
      refine ⟨if truth then "true" else "false",
        Heap.writesAs_leaf fun _ => by simp [Heap.textTo?], ?_⟩
      cases truth <;> exact spellsTree_word (by decide) (by decide)
  | int number =>
      obtain ⟨hsign, rfl⟩ := hshows
      exact ⟨_, Heap.writesAs_leaf fun _ => by simp only [Heap.textTo?],
        spellsTree_natural hsign⟩
  | str text =>
      cases hshows
      exact ⟨quote text, Heap.writesAs_leaf fun _ => by simp [Heap.textTo?],
        fun _ _ _ hlexes => hlexes.quoted text⟩
  | unary op operand =>
      obtain ⟨number, rfl, rfl, hsign, rfl⟩ := hshows
      exact ⟨_, Heap.writesAs_leaf fun _ => by simp only [Heap.textTo?],
        spellsTree_negative hsign⟩
  | array entries ih =>
      obtain ⟨chain, rfl, hentries⟩ := hshows
      obtain ⟨texts, htexts, _, hspells⟩ := ih hentries
      exact ⟨_, Heap.WritesEntries.array htexts true, hspells.array⟩
  | noEntries =>
      obtain ⟨expected, entries⟩ := shown
      cases hshows
      exact ⟨[], ⟨0, fun _ _ => rfl⟩, rfl, fun _ _ _ hlexes => hlexes⟩
  | item first others ihf iho =>
      obtain ⟨expected, entries⟩ := shown
      obtain ⟨position, value, rest, rfl, hnext, hfirst, hothers⟩ := hshows
      obtain ⟨text, htext, hspells⟩ := ihf hfirst
      obtain ⟨texts, htexts, hempty, hmore⟩ := iho hothers
      have hlead : entryLead expected (.index position) ++ text = text := by
        simp [entryLead, hnext]
      refine ⟨_ :: texts, Heap.WritesEntries.cons htext htexts, rfl, ?_⟩
      rw [hlead]
      exact hspells.entry hempty hmore
  | keyed key first others ihf iho =>
      obtain ⟨expected, entries⟩ := shown
      obtain ⟨value, rest, rfl, hplain, hleads, hfirst, hothers⟩ := hshows
      obtain ⟨text, htext, hspells⟩ := ihf hfirst
      obtain ⟨texts, htexts, hempty, hmore⟩ := iho hothers
      exact ⟨_ :: texts, Heap.WritesEntries.cons htext htexts, rfl,
        (hspells.keyed hplain hleads).entry hempty hmore⟩
  | _ => exact hshows.elim

end ChainScript
