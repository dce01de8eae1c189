import ChainScript.Proofs.EqualityOperators
import ChainScript.Proofs.LinkNumbers

/-
The two equalities of values coincide where there are no floats.

The stricter equality keeps whole numbers and floats apart, and it does not
compare arrays of one chain at all.  Without floats neither makes a difference:
the kinds of equal values are the same anyway, and an array equals itself.  The
statements are about all depths that are large enough, so nothing depends on the
bound of a heap.

That arrays of one chain are one array rests on the numbers of links.  It is
assumed of two values in a heap, and it is so in the course of a session.
-/

namespace ChainScript

/-- What follows arrays to a given depth has one and the same answer at all
depths that are large enough. -/
def Concludes (follow? : Nat → Option Bool) (answer : Bool) : Prop :=
  ∃ enough, ∀ depth, enough ≤ depth → follow? depth = some answer

theorem Concludes.unique {follow? : Nat → Option Bool} {one other : Bool}
    (hone : Concludes follow? one) (hother : Concludes follow? other) :
    one = other := by
  obtain ⟨enough, hone⟩ := hone
  obtain ⟨enough', hother⟩ := hother
  have hanswer := hone (max enough enough') (Nat.le_max_left _ _)
  rw [hother _ (Nat.le_max_right _ _)] at hanswer
  exact (Option.some.inj hanswer).symm

/-- One more level of arrays takes one more depth. -/
theorem concludes_succ {follow? : Nat → Option Bool} {answer : Bool}
    (hbelow : Concludes (fun depth => follow? (depth + 1)) answer) :
    Concludes follow? answer := by
  obtain ⟨enough, hbelow⟩ := hbelow
  refine ⟨enough + 1, fun depth hdepth => ?_⟩
  obtain ⟨below, rfl⟩ : ∃ below, depth = below + 1 := ⟨depth - 1, by omega⟩
  exact hbelow below (by omega)

/-- Finitely many values have a depth that is large enough for all. -/
theorem exists_enough {α : Type} {items : List α} {holds : Nat → α → Prop}
    (hitems : ∀ item ∈ items, ∃ enough, ∀ depth, enough ≤ depth →
      holds depth item) :
    ∃ enough, ∀ depth, enough ≤ depth → ∀ item ∈ items, holds depth item := by
  induction items with
  | nil => exact ⟨0, fun _ _ _ hitem => absurd hitem List.not_mem_nil⟩
  | cons first rest ih =>
      obtain ⟨hfirst, hrest⟩ := List.forall_mem_cons.mp hitems
      obtain ⟨enough, hfirst⟩ := hfirst
      obtain ⟨enough', hrest⟩ := ih hrest
      refine ⟨max enough enough', fun depth hdepth => ?_⟩
      have hle := Nat.max_le.mp hdepth
      exact List.forall_mem_cons.mpr ⟨hfirst depth hle.1, hrest depth hle.2⟩

section Entries

variable {agree? : Value → Value → Option Bool}

theorem entriesAgree?_cons_iff {first second : Key × Value}
    {firsts seconds : List (Key × Value)} :
    entriesAgree? agree? (first :: firsts) (second :: seconds) = some true ↔
      first.1 = second.1 ∧ agree? first.2 second.2 = some true ∧
        entriesAgree? agree? firsts seconds = some true := by
  obtain ⟨key, value⟩ := first
  obtain ⟨key', value'⟩ := second
  by_cases hkey : key = key'
  · rcases hvalue : agree? value value' with _ | _ | _ <;>
      simp [entriesAgree?, hkey, hvalue]
  · simp [entriesAgree?, hkey]

theorem entriesAgree?_comm
    (hcomm : ∀ left right, agree? left right = agree? right left)
    (firsts seconds : List (Key × Value)) :
    entriesAgree? agree? firsts seconds =
      entriesAgree? agree? seconds firsts := by
  induction firsts generalizing seconds with
  | nil => cases seconds <;> rfl
  | cons first firsts ih =>
      cases seconds with
      | nil => rfl
      | cons second seconds =>
          by_cases hkey : first.1 = second.1
          · simp [entriesAgree?, hkey, hcomm first.2, ih]
          · simp [entriesAgree?, hkey, Ne.symm hkey]

theorem entriesAgree?_trans {firsts seconds thirds : List (Key × Value)}
    (htrans : ∀ first ∈ firsts, ∀ second ∈ seconds, ∀ third ∈ thirds,
      agree? first.2 second.2 = some true →
      agree? second.2 third.2 = some true →
      agree? first.2 third.2 = some true)
    (hone : entriesAgree? agree? firsts seconds = some true)
    (htwo : entriesAgree? agree? seconds thirds = some true) :
    entriesAgree? agree? firsts thirds = some true := by
  induction firsts generalizing seconds thirds with
  | nil =>
      cases seconds with
      | nil => exact htwo
      | cons => simp [entriesAgree?] at hone
  | cons first firsts ih =>
      cases seconds with
      | nil => simp [entriesAgree?] at hone
      | cons second seconds =>
          cases thirds with
          | nil => simp [entriesAgree?] at htwo
          | cons third thirds =>
              obtain ⟨hkey, hvalue, hone⟩ := entriesAgree?_cons_iff.mp hone
              obtain ⟨hkey', hvalue', htwo⟩ := entriesAgree?_cons_iff.mp htwo
              refine entriesAgree?_cons_iff.mpr ⟨hkey.trans hkey', ?_, ?_⟩
              · exact htrans first List.mem_cons_self second
                  List.mem_cons_self third List.mem_cons_self hvalue hvalue'
              · exact ih (fun a ha b hb c hc => htrans a
                  (List.mem_cons_of_mem _ ha) b (List.mem_cons_of_mem _ hb) c
                  (List.mem_cons_of_mem _ hc)) hone htwo

/-- If two ways to compare values conclude alike, then so do the ways to compare
entries that go by them. -/
theorem entriesAgree?_concludes {one two : Nat → Value → Value → Option Bool}
    {firsts seconds : List (Key × Value)}
    (hvalues : ∀ first ∈ firsts, ∀ second ∈ seconds, ∃ answer,
      Concludes (fun depth => one depth first.2 second.2) answer ∧
        Concludes (fun depth => two depth first.2 second.2) answer) :
    ∃ answer,
      Concludes (fun depth => entriesAgree? (one depth) firsts seconds)
          answer ∧
        Concludes (fun depth => entriesAgree? (two depth) firsts seconds)
          answer := by
  induction firsts generalizing seconds with
  | nil =>
      cases seconds with
      | nil => exact ⟨true, ⟨0, fun _ _ => rfl⟩, ⟨0, fun _ _ => rfl⟩⟩
      | cons => exact ⟨false, ⟨0, fun _ _ => rfl⟩, ⟨0, fun _ _ => rfl⟩⟩
  | cons first firsts ih =>
      cases seconds with
      | nil => exact ⟨false, ⟨0, fun _ _ => rfl⟩, ⟨0, fun _ _ => rfl⟩⟩
      | cons second seconds =>
          by_cases hkey : first.1 = second.1
          · obtain ⟨answer, ⟨enough, hone⟩, ⟨enough', htwo⟩⟩ :=
              hvalues first List.mem_cons_self second List.mem_cons_self
            obtain ⟨answer', ⟨more, hones⟩, ⟨more', htwos⟩⟩ :=
              ih fun a ha b hb => hvalues a (List.mem_cons_of_mem _ ha) b
                (List.mem_cons_of_mem _ hb)
            refine ⟨answer && answer', ⟨max enough more, ?_⟩,
              ⟨max enough' more', ?_⟩⟩
            · intro depth hdepth
              have hle := Nat.max_le.mp hdepth
              cases answer <;>
                simp [entriesAgree?, hkey, hone depth hle.1, hones depth hle.2]
            · intro depth hdepth
              have hle := Nat.max_le.mp hdepth
              cases answer <;>
                simp [entriesAgree?, hkey, htwo depth hle.1, htwos depth hle.2]
          · exact ⟨false, ⟨0, fun _ _ => by simp [entriesAgree?, hkey]⟩,
              ⟨0, fun _ _ => by simp [entriesAgree?, hkey]⟩⟩

end Entries

namespace Heap

variable (heap : Heap)

/-- No float occurs in a value, at any depth of its merged entries. -/
inductive Floatless : Value → Prop where
  | null : Floatless .null
  | bool (value : Bool) : Floatless (.bool value)
  | int (value : Int64) : Floatless (.int value)
  | str (text : String) : Floatless (.str text)
  | function (id : FunctionId) : Floatless (.function id)
  | array {chain : Chain}
      (entries : ∀ entry ∈ (heap.flatten chain).entries,
        Floatless entry.2) : Floatless (.array chain)

/-- Where there are no floats, both equalities say the same of all values of some
kind. -/
def Coincides (shown : Value → Prop) : Prop :=
  ∀ left right, shown left → shown right →
    heap.Floatless left → heap.Floatless right → ∃ answer,
      heap.equal? left right = some answer ∧
        heap.same? left right = some answer

/-- The values are equal in scripts. -/
def Equals (left right : Value) : Prop :=
  Concludes (fun depth => heap.equalTo? depth left right) true

variable {heap}

theorem Floatless.entry {chain : Chain}
    (hchain : heap.Floatless (.array chain)) :
    ∀ entry ∈ (heap.flatten chain).entries, heap.Floatless entry.2 := by
  cases hchain with
  | array hentries => exact hentries

theorem Linked.entry {first second : Chain}
    (hlinked : heap.Linked (.array first) (.array second))
    {one two : Key × Value} (hone : one ∈ (heap.flatten first).entries)
    (htwo : two ∈ (heap.flatten second).entries) :
    heap.Linked one.2 two.2 :=
  fun inner inner' hinner hinner' =>
    hlinked inner inner' (.entry hone hinner) (.entry htwo hinner')

/-- Values that are not both arrays are compared at every depth, and without
floats both equalities say the same of them. -/
theorem scalars_conclude {left right : Value} (hleft : heap.Floatless left)
    (hright : heap.Floatless right)
    (hscalar : left.chain? = none ∨ right.chain? = none) :
    ∃ answer,
      Concludes (fun depth => heap.equalTo? depth left right) answer ∧
        Concludes (fun depth => heap.sameTo? depth left right) answer := by
  have hboth : ∀ depth,
      heap.equalTo? depth left right = some (scalarsSame left right) ∧
        heap.sameTo? depth left right = some (scalarsSame left right) := by
    intro depth
    cases hleft <;> cases hright
    case array.array => simp [Value.chain?] at hscalar
    all_goals cases depth <;> exact ⟨rfl, rfl⟩
  exact ⟨scalarsSame left right, ⟨0, fun depth _ => (hboth depth).1⟩,
    ⟨0, fun depth _ => (hboth depth).2⟩⟩

/-- Equal values without floats are both arrays, or they are one value. -/
theorem eq_or_arrays {left right : Value} (hleft : heap.Floatless left)
    (hright : heap.Floatless right) {depth : Nat}
    (hequal : heap.equalTo? depth left right = some true) :
    left = right ∨
      ∃ first second : Chain, left = .array first ∧ right = .array second := by
  cases hleft <;> cases hright
  case array.array => exact .inr ⟨_, _, rfl, rfl⟩
  all_goals
    left
    cases depth <;>
      simp [equalTo?, scalarsEqual, scalarsSame] at hequal ⊢ <;> exact hequal

theorem equalTo?_comm (heap : Heap) (depth : Nat) (left right : Value) :
    heap.equalTo? depth left right = heap.equalTo? depth right left := by
  induction depth generalizing left right with
  | zero =>
      cases left <;> cases right <;>
        simp [equalTo?, scalarsEqual, scalarsSame, Bool.beq_comm,
          float_beq_comm]
  | succ depth ih =>
      cases left <;> cases right
      case array.array first second =>
        exact entriesAgree?_comm ih (heap.flatten first).entries
          (heap.flatten second).entries
      all_goals simp [equalTo?, scalarsEqual, scalarsSame, Bool.beq_comm,
        float_beq_comm]

theorem equalTo?_trans {left middle right : Value} {depth : Nat}
    (hleft : heap.Floatless left) (hmiddle : heap.Floatless middle)
    (hright : heap.Floatless right)
    (hone : heap.equalTo? depth left middle = some true)
    (htwo : heap.equalTo? depth middle right = some true) :
    heap.equalTo? depth left right = some true := by
  induction depth generalizing left middle right with
  | zero =>
      rcases eq_or_arrays hleft hmiddle hone with rfl | ⟨_, _, rfl, rfl⟩
      · exact htwo
      · simp [equalTo?] at hone
  | succ depth ih =>
      rcases eq_or_arrays hleft hmiddle hone with rfl | ⟨_, _, rfl, rfl⟩
      · exact htwo
      rcases eq_or_arrays hmiddle hright htwo with rfl | ⟨_, _, hsame, rfl⟩
      · exact hone
      cases hsame
      exact entriesAgree?_trans (fun one hone two htwo three hthree =>
        ih (hleft.entry one hone) (hmiddle.entry two htwo)
          (hright.entry three hthree)) hone htwo

/-- An array equals itself, since what is in it does. -/
theorem equals_self {value : Value} (hvalue : heap.Floatless value) :
    heap.Equals value value := by
  induction hvalue with
  | @array chain _ ih =>
      obtain ⟨enough, hentries⟩ := exists_enough ih
      exact concludes_succ ⟨enough, fun depth hdepth =>
        entriesAgree?_self (hentries depth hdepth)⟩
  | _ => exact ⟨0, fun depth _ => by
      cases depth <;> simp [equalTo?, scalarsEqual, scalarsSame]⟩

/-- Both equalities conclude, with the same answer.  The shortcut of the
stricter one answers what the comparison would have answered, since the chains
are the same then. -/
theorem both_conclude {left right : Value} (hleft : heap.Floatless left)
    (hright : heap.Floatless right) (hlinked : heap.Linked left right) :
    ∃ answer,
      Concludes (fun depth => heap.equalTo? depth left right) answer ∧
        Concludes (fun depth => heap.sameTo? depth left right) answer := by
  induction hleft generalizing right with
  | @array first hfirst ih =>
      cases hright with
      | @array second hsecond =>
          by_cases hsame : Chain.same first second = true
          · obtain rfl := hlinked first second .self .self hsame
            refine ⟨true, equals_self (.array hfirst), 0, fun depth _ => ?_⟩
            cases depth <;> simp [sameTo?, hsame]
          · obtain ⟨answer, hequal, hstrict⟩ :=
              entriesAgree?_concludes fun one hone two htwo =>
                ih one hone (hsecond two htwo) (hlinked.entry hone htwo)
            refine ⟨answer, concludes_succ hequal, concludes_succ ?_⟩
            simpa [sameTo?, hsame] using hstrict
      | _ => exact scalars_conclude (.array hfirst) (by constructor) (.inr rfl)
  | null => exact scalars_conclude .null hright (.inl rfl)
  | bool value => exact scalars_conclude (.bool value) hright (.inl rfl)
  | int value => exact scalars_conclude (.int value) hright (.inl rfl)
  | str text => exact scalars_conclude (.str text) hright (.inl rfl)
  | function id => exact scalars_conclude (.function id) hright (.inl rfl)

/-- Only the merged entries of an array matter to its comparison. -/
theorem equalTo?_congr {first second : Chain}
    (hentries : (heap.flatten first).entries = (heap.flatten second).entries)
    (depth : Nat) (value : Value) :
    heap.equalTo? depth (.array first) value =
      heap.equalTo? depth (.array second) value := by
  cases depth <;> cases value <;> simp [equalTo?, scalarsEqual, scalarsSame,
    hentries]

/-- Where the bound of the heap is a depth that is large enough, the answer is
found there. -/
theorem Settles.eq_of_concludes {follow? : Nat → Option Bool} {answer : Bool}
    (hsettles : heap.Settles follow?) (hanswer : Concludes follow? answer) :
    follow? heap.depthBound = some answer := by
  obtain ⟨found, hfound⟩ := hsettles
  rw [hfound _ (Nat.le_refl _), Concludes.unique ⟨_, hfound⟩ hanswer]

end Heap

namespace Store

variable {store : Store} {programs : Array Program}

/-- Held values are compared within the bound of the heap. -/
theorem Sound.answers (hsound : store.Sound programs) {left right : Value}
    (hleft : store.Holds left) (hright : store.Holds right) {answer : Bool}
    (hequal : Concludes (fun depth => store.heap.equalTo? depth left right)
      answer)
    (hsame : Concludes (fun depth => store.heap.sameTo? depth left right)
      answer) :
    store.heap.equal? left right = some answer ∧
      store.heap.same? left right = some answer := by
  have hacyclic : store.heap.Acyclic store.Holds :=
    hsound.acyclic fun _ hvalue => hvalue
  exact ⟨(hacyclic.equal left right hleft hright).eq_of_concludes hequal,
    (hacyclic.same left right hleft hright).eq_of_concludes hsame⟩

theorem Sound.coincides (hsound : store.Sound programs)
    (hnumbered : store.Numbered) {shown : Value → Prop}
    (hheld : ∀ value, shown value → store.Holds value) :
    store.heap.Coincides shown := by
  intro left right hleft hright hfloatless hfloatless'
  obtain ⟨answer, hequal, hsame⟩ := Heap.both_conclude hfloatless hfloatless'
    (hsound.linked hnumbered (hheld left hleft) (hheld right hright))
  exact ⟨answer,
    hsound.answers (hheld left hleft) (hheld right hright) hequal hsame⟩

end Store

/-- Without floats, the equality of scripts and the stricter one have the same
answer for all values.  It is an equivalence relation on them, and it depends on
arrays through their merged entries only: however many frames two arrays have,
they are equal if their entries are, and equal to the same values.  In a session
whose host hands on values as they are, nothing has to be known of the links:
the equalities coincide in each of its states. -/
theorem value_equalities_coincide :
    (∀ heap : Heap,
      (∀ left right, heap.Floatless left → heap.Floatless right →
        heap.Linked left right → ∃ answer,
          Concludes (fun depth => heap.equalTo? depth left right) answer ∧
          Concludes (fun depth => heap.sameTo? depth left right) answer ∧
          ∀ (store : Store) (programs : Array Program), store.heap = heap →
            store.Sound programs → store.Holds left → store.Holds right →
              heap.equal? left right = some answer ∧
                heap.same? left right = some answer) ∧
      Equivalence (fun left right : { value // heap.Floatless value } =>
        heap.Equals left.1 right.1) ∧
      ∀ first second : Chain,
        (heap.flatten first).entries = (heap.flatten second).entries →
          (heap.Floatless (.array first) →
            heap.Equals (.array first) (.array second)) ∧
          ∀ depth value,
            heap.equalTo? depth (.array first) value =
              heap.equalTo? depth (.array second) value) ∧
    ∀ {World : Type} (known : World → Value → Prop) (natives : Natives World)
      (world : World) (requests : List Request),
      SuppliedSession Heap.HandedOn known natives world requests →
      let history := Session.history natives world requests
      let session := (Session.start world).serveAll (evaluate natives) requests
      history.mapWorld Watched.world = session ∧
        session.heap.Coincides (session.Shows known) ∧
        ∀ moment ∈ history.world.past,
          moment.heap.Coincides (moment.Shows known) := by
  refine ⟨fun heap => ⟨?_, ⟨fun value => Heap.equals_self value.2, ?_, ?_⟩, ?_⟩,
    fun _ _ _ _ hsupplied => hsupplied.throughout
      fun _ _ _ hsound hnumbered hheld => hsound.coincides hnumbered hheld⟩
  · intro left right hleft hright hlinked
    obtain ⟨answer, hequal, hsame⟩ :=
      Heap.both_conclude hleft hright hlinked
    refine ⟨answer, hequal, hsame, ?_⟩
    rintro store programs rfl hsound hheld hheld'
    exact hsound.answers hheld hheld' hequal hsame
  · rintro left right ⟨enough, hequal⟩
    exact ⟨enough, fun depth hdepth =>
      (heap.equalTo?_comm depth _ _).trans (hequal depth hdepth)⟩
  · rintro left middle right ⟨enough, hone⟩ ⟨enough', htwo⟩
    refine ⟨max enough enough', fun depth hdepth => ?_⟩
    have hle := Nat.max_le.mp hdepth
    exact Heap.equalTo?_trans left.2 middle.2 right.2 (hone depth hle.1)
      (htwo depth hle.2)
  · intro first second hentries
    have hcongr := Heap.equalTo?_congr hentries
    refine ⟨fun hfirst => ?_, hcongr⟩
    obtain ⟨enough, hself⟩ := Heap.equals_self hfirst
    refine ⟨enough, fun depth hdepth => ?_⟩
    calc heap.equalTo? depth (.array first) (.array second)
      _ = heap.equalTo? depth (.array second) (.array first) :=
        heap.equalTo?_comm depth _ _
      _ = heap.equalTo? depth (.array first) (.array first) :=
        (hcongr depth _).symm
      _ = some true := hself depth hdepth

/-- A store with an array of two frames and one of a single frame that has the
same merged entries.  Both share another array. -/
def sharingStore : Store where
  heap := {
    frames := #[
      { entries := [(.index 0, .int 1)] },
      { entries := [(.badge "a", .array [⟨0, 0⟩])] },
      { entries := [(.badge "b", .str "x")] },
      { entries := [(.badge "a", .array [⟨0, 0⟩]), (.badge "b", .str "x")] }] }
  sealed := [3, 2, 1, 0]

theorem sharingStore_sound : sharingStore.Sound #[] where
  frames := by
    intro id
    match id with
    | 0 | 1 | 2 | 3 =>
        simp [sharingStore, Heap.frame, Store.HoldsAll, Container.All,
          Store.Holds, Chain.frames]
    | _ + 4 => exact fun _ hentry => absurd hentry List.not_mem_nil
  functions := fun _ hfunction => absurd hfunction (Array.not_mem_empty _)
  sealed_lt := by decide
  nodup := by decide
  layered := by
    simp [sharingStore, Heap.frame, Store.Layered, Store.HoldsAll,
      Container.All, Store.Holds, Chain.frames]

/-- An array of two frames equals one of a single frame, in both ways.  In a
session in which a script runs twice, the values that there are in the end are
compared in both ways, too. -/
theorem value_equalities_coincide_stacked :
    let heap := sharingStore.heap
    let left := .array [⟨2, 2⟩, ⟨1, 1⟩]
    let right := .array [⟨3, 3⟩]
    let session := (Session.start []).serveAll (evaluate keepingHost)
      inheritingTwice
    heap.Floatless left ∧ heap.Floatless right ∧ heap.Linked left right ∧
      heap.Equals left right ∧ heap.equal? left right = some true ∧
      heap.same? left right = some true ∧
      session.heap.Coincides (session.Shows fun kept value => value ∈ kept) := by
  intro heap left right session
  have hshared : (heap.flatten [⟨0, 0⟩]).entries = [(.index 0, .int 1)] := by
    decide +kernel
  have hleft : (heap.flatten [⟨2, 2⟩, ⟨1, 1⟩]).entries =
      [(.badge "a", .array [⟨0, 0⟩]), (.badge "b", .str "x")] := by
    decide +kernel
  have hright : (heap.flatten [⟨3, 3⟩]).entries =
      [(.badge "a", .array [⟨0, 0⟩]), (.badge "b", .str "x")] := by
    decide +kernel
  have hfloatless : heap.Floatless (.array [⟨0, 0⟩]) :=
    .array (by simp [hshared, Heap.Floatless.int])
  have hfloatless' : heap.Floatless left ∧ heap.Floatless right :=
    ⟨.array (by simp [hleft, hfloatless, Heap.Floatless.str]),
      .array (by simp [hright, hfloatless, Heap.Floatless.str])⟩
  have hinside : ∀ (outer inner : Chain),
      (heap.flatten outer).entries =
        [(.badge "a", .array [⟨0, 0⟩]), (.badge "b", .str "x")] →
      heap.Inside (.array inner) (.array outer) →
        inner = outer ∨ inner = [⟨0, 0⟩] := by
    intro outer inner houter hinner
    cases hinner with
    | self => exact .inl rfl
    | entry hamong hbelow =>
        rw [houter] at hamong
        simp only [List.mem_cons, List.not_mem_nil, or_false] at hamong
        rcases hamong with rfl | rfl
        · cases hbelow with
          | self => exact .inr rfl
          | entry hamong hbelow =>
              rw [hshared, List.mem_singleton] at hamong
              subst hamong
              cases hbelow
        · cases hbelow
  have hlinked : heap.Linked left right := by
    intro first second hfirst hsecond
    rcases hinside _ _ hleft hfirst with rfl | rfl <;>
      rcases hinside _ _ hright hsecond with rfl | rfl <;> decide
  obtain ⟨hheaps, hsessions⟩ := value_equalities_coincide
  obtain ⟨hcoincide, -, hentries⟩ := hheaps heap
  have hequal : heap.Equals left right :=
    (hentries _ _ (hleft.trans hright.symm)).1 hfloatless'.1
  obtain ⟨answer, hanswer, -, hfound⟩ :=
    hcoincide left right hfloatless'.1 hfloatless'.2 hlinked
  obtain rfl : answer = true := hanswer.unique hequal
  have hheld : sharingStore.Holds left ∧ sharingStore.Holds right := by
    simp [left, right, sharingStore, Store.Holds, Chain.frames]
  obtain ⟨hequals, hsame⟩ :=
    hfound _ _ rfl sharingStore_sound hheld.1 hheld.2
  have hsession := hsessions _ keepingHost [] inheritingTwice
    (supplied_inheritingTwice Heap.Occurs.handedOn)
  exact ⟨hfloatless'.1, hfloatless'.2, hlinked, hequal, hequals, hsame,
    hsession.2.1⟩

end ChainScript
