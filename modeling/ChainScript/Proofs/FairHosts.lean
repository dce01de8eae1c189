import ChainScript.Proofs.Agreement
import ChainScript.Proofs.SafeSteps

/-
Hosts that make up no values.

Numbers and texts are free, but an array can only be made of frames that belong
to arrays already, or of new ones, and functions are handed on or made.  A host
that took a scope for an array would see that array change, and scripts could
put it into itself.

Some hosts make up no links either: their arrays come from elsewhere as they
are, or are made by the operations of a reply.  What holds of both kinds of host
is stated for any supply of values.
-/

namespace ChainScript

open Step Run

variable {World : Type}

namespace Heap

variable (heap : Heap) (given : Value → Prop)

/-- A value that is given, or that is in a frame, or that is bound by a
function. -/
inductive Occurs : Value → Prop where
  | given {value : Value} (hgiven : given value) : Occurs value
  | frame (id : FrameId) {entry : Key × Value}
      (hentry : entry ∈ (heap.frame id).entries) : Occurs entry.2
  | bound {function : Function} (hfunction : function ∈ heap.functions)
      {entry : Key × Value} (hentry : entry ∈ function.bound.entries) :
      Occurs entry.2

/-- A value whose parts occur: each frame of an array belongs to an array that
does. -/
def Obtainable : Value → Prop
  | .array chain => ∀ frame ∈ chain.frames,
      ∃ other : Chain, heap.Occurs given (.array other) ∧ frame ∈ other.frames
  | .function id => heap.Occurs given (.function id)
  | _ => True

/-- A value that can be handed on as it is: a function that occurs, or what is
left of an array that does when inner links are taken off it. -/
def HandedOn : Value → Prop
  | .array chain => chain = [] ∨
      ∃ other : Chain, heap.Occurs given (.array other) ∧ chain <:+ other
  | .function id => heap.Occurs given (.function id)
  | _ => True

variable {heap} {given}

theorem Occurs.obtainable {value : Value} (hvalue : heap.Occurs given value) :
    heap.Obtainable given value := by
  cases value with
  | array chain => exact fun frame hframe => ⟨chain, hvalue, hframe⟩
  | function id => exact hvalue
  | _ => trivial

theorem Occurs.handedOn {value : Value} (hvalue : heap.Occurs given value) :
    heap.HandedOn given value := by
  cases value with
  | array chain => exact .inr ⟨chain, hvalue, List.suffix_rfl⟩
  | function id => exact hvalue
  | _ => trivial

end Heap

/-- The values of an answer. -/
def answerValues : Except Exit Value → List Value
  | .ok value => [value]
  | .error exit => exit.values

/-- The values that a host may use, by the heap and the values that it is
given. -/
abbrev Supply : Type :=
  Heap → (Value → Prop) → Value → Prop

section Supplied

variable (supply : Supply) (known : World → Value → Prop)

/-- All values that a reply uses are supplied from those that are given when it
begins, and so are all that the host knows afterwards. -/
def Reply.DrawsOn : Reply World → Heap → (Value → Prop) → Prop
  | .answer result world, heap, given =>
      (∀ value ∈ answerValues result, supply heap given value) ∧
        ∀ value, known world value → supply heap given value
  | .array content next, heap, given =>
      content.All (supply heap given) ∧
        let made := heap.addArray content
        (next made.1).DrawsOn made.2 fun value => value = made.1 ∨ given value
  | .compose left right next, heap, given =>
      supply heap given left ∧ supply heap given right ∧
        match heap.compose left right with
        | .ok made => (next (.ok made.1)).DrawsOn made.2 fun value =>
            value = made.1 ∨ given value
        | .error cause => (next (.error cause)).DrawsOn heap given
  | .native name next, heap, given =>
      let made := heap.addFunction { name, body := .native }
      (next (.function made.1)).DrawsOn made.2 fun value =>
        value = .function made.1 ∨ given value

/-- The functions of a host use their arguments, what the host knew before, and
what is in the heap. -/
def Natives.DrawOn (natives : Natives World) : Prop :=
  ∀ name args heap world,
    (natives.reply name args heap world).DrawsOn supply known heap
      fun value => value ∈ args.entries.map Prod.snd ∨ known world value

/-- The values that a host passes to an interpreter are supplied. -/
def Use.DrawsOn (heap : Heap) (given : Value → Prop) : Use → Prop
  | .run | .lookup _ | .native _ => True
  | .call callee args =>
      supply heap given callee ∧ args.All (supply heap given)
  | .define _ value => supply heap given value
  | .array content => content.All (supply heap given)
  | .compose left right => supply heap given left ∧ supply heap given right

def Request.DrawsOn (heap : Heap) (given : Value → Prop) : Request → Prop
  | .build _ globals _ | .rebuild _ globals _ =>
      ∀ global ∈ globals, supply heap given global.2
  | .use _ action => action.DrawsOn supply heap given

/-- A request whose values are supplied from what the host was answered and from
what it knows. -/
def Session.DrawsOn (session : Session World) (request : Request) : Prop :=
  request.DrawsOn supply session.heap fun value =>
    value ∈ session.answers ∨ known session.world value

/-- Requests whose values are supplied, one after another. -/
def Session.AllDrawOn (natives : Natives World) :
    Session World → List Request → Prop
  | _, [] => True
  | session, request :: rest =>
      session.DrawsOn supply known request ∧
        AllDrawOn natives (serve (evaluate natives) request session).2 rest

/-- A session whose host uses only what it is supplied with.  It knows no array
or function when the session starts. -/
structure SuppliedSession (natives : Natives World) (world : World)
    (requests : List Request) : Prop where
  replies : natives.DrawOn supply known
  begins : ∀ value, known world value →
    supply Heap.empty (fun _ => False) value
  asks : (Session.start world).AllDrawOn supply known natives requests

end Supplied

section Fair

variable (known : World → Value → Prop)

/-- All values that a reply uses are obtainable. -/
abbrev Reply.Fair (reply : Reply World) (heap : Heap)
    (given : Value → Prop) : Prop :=
  reply.DrawsOn Heap.Obtainable known heap given

/-- The functions of a host that makes up no values. -/
abbrev Natives.Fair (natives : Natives World) : Prop :=
  natives.DrawOn Heap.Obtainable known

abbrev Use.Fair (heap : Heap) (given : Value → Prop) (use : Use) : Prop :=
  use.DrawsOn Heap.Obtainable heap given

abbrev Session.Fair (session : Session World) (request : Request) : Prop :=
  session.DrawsOn Heap.Obtainable known request

/-- A session whose host makes up no values: it knows no array or function when
the session starts, and neither its functions nor its requests use a value that
is not obtainable.  So the host keeps to the representation of arrays, in which
the innermost frame of an array is the array's own container, those outside it
are containers of other arrays, and none of them changes once the array is made.
It could break this only with a scope, which a function that it is given shows
to it. -/
abbrev FairSession (natives : Natives World) (world : World)
    (requests : List Request) : Prop :=
  SuppliedSession Heap.Obtainable known natives world requests

end Fair

/-- The scope that a function of a script was made in.  A host can look into it,
but no array may be made of it. -/
def Heap.scopeOf? (heap : Heap) : Value → Option Chain
  | .function id =>
      match heap.function? id with
      | some ⟨_, .script _ _ captured, _⟩ => some captured
      | _ => none
  | _ => none

/-- A host whose functions make arrays of their arguments and keep them. -/
def keepingHost : Natives (List Value) where
  reply _ args _ kept :=
    .array args fun made => .answer (.ok made) (made :: kept)

/-- This host uses no values but those that occur. -/
theorem keepingHost_drawOn {supply : Supply}
    (hoccurs : ∀ {heap given value}, Heap.Occurs heap given value →
      supply heap given value) :
    keepingHost.DrawOn supply fun kept value => value ∈ kept := by
  intro name args heap kept
  refine ⟨fun entry hentry => ?_, fun value hvalue => ?_, fun value hvalue => ?_⟩
  · exact hoccurs (.given (.inl (List.mem_map_of_mem hentry)))
  · rw [List.mem_singleton.mp hvalue]
    exact hoccurs (.given (.inl rfl))
  · rcases List.mem_cons.mp hvalue with hnew | hold
    · exact hoccurs (.given (.inl hnew))
    · exact hoccurs (.given (.inr (.inr hold)))

theorem keepingHost_fair :
    keepingHost.Fair fun kept value => value ∈ kept :=
  keepingHost_drawOn Heap.Occurs.obtainable

namespace Store

variable {store : Store} {programs : Array Program} {given : Value → Prop}

/-- All values that occur are held. -/
theorem Sound.holds_of_occurs (hsound : store.Sound programs)
    (hgiven : ∀ value, given value → store.Holds value) {value : Value}
    (hvalue : store.heap.Occurs given value) : store.Holds value := by
  cases hvalue with
  | given hvalue => exact hgiven value hvalue
  | frame id hentry => exact hsound.frames id _ hentry
  | bound hfunction hentry =>
      exact (hsound.functions _ hfunction).1 _ hentry

/-- The store and all later ones hold what is supplied from values that they
hold. -/
def Honours (store : Store) (supply : Supply) : Prop :=
  ∀ after : Store, store.Extends after → ∀ {programs given value},
    after.Sound programs → (∀ value, given value → after.Holds value) →
      supply after.heap given value → after.Holds value

variable {supply : Supply}

theorem Honours.extends {after : Store} (hhonours : store.Honours supply)
    (hextends : store.Extends after) : after.Honours supply :=
  fun later hlater => hhonours later (hextends.trans hlater)

/-- Where links are not followed, what is obtainable is held. -/
theorem honours_obtainable (hbehind : ∀ link outer, store.behind link outer) :
    store.Honours Heap.Obtainable := by
  intro after hextends programs given value hsound hgiven hvalue
  cases value with
  | array chain =>
      refine ⟨fun frame hframe => ?_,
        fun link outer _ => hextends.behind link outer (hbehind link outer)⟩
      obtain ⟨other, hother, hin⟩ := hvalue frame hframe
      exact (hsound.holds_of_occurs hgiven hother).1 frame hin
  | function id => exact hsound.holds_of_occurs hgiven hvalue
  | _ => trivial

/-- What is left of an array has no links but those of the array. -/
theorem honours_handedOn : store.Honours Heap.HandedOn := by
  intro after _ programs given value hsound hgiven hvalue
  cases value with
  | array chain =>
      rcases hvalue with rfl | ⟨other, hother, hpart⟩
      · exact ⟨fun _ hframe => absurd hframe List.not_mem_nil,
          fun _ _ hlink =>
            absurd (List.suffix_nil.mp hlink) (List.cons_ne_nil _ _)⟩
      · obtain ⟨hsealed, hfollows⟩ := hsound.holds_of_occurs hgiven hother
        exact ⟨fun frame hframe =>
            hsealed frame ((hpart.map Link.frame).subset hframe),
          fun link outer hlink => hfollows link outer (hlink.trans hpart)⟩
  | function id => exact hsound.holds_of_occurs hgiven hvalue
  | _ => trivial

section Supplied

variable (hhonours : store.Honours supply) (hsound : store.Sound programs)
  (hgiven : ∀ value, given value → store.Holds value)

include hhonours hsound hgiven

theorem Honours.holds {value : Value}
    (hvalue : supply store.heap given value) : store.Holds value :=
  hhonours store (.refl store) hsound hgiven hvalue

theorem Honours.holdsAll {content : Container Value}
    (hcontent : content.All (supply store.heap given)) :
    store.HoldsAll content :=
  hcontent.mono fun _ => hhonours.holds hsound hgiven

end Supplied

end Store

/-- The values that a host knows are held. -/
def Store.HoldsKnown (store : Store) (known : World → Value → Prop)
    (world : World) : Prop :=
  ∀ value, known world value → store.Holds value

theorem Store.HoldsKnown.extends {before after : Store}
    {known : World → Value → Prop} {world : World}
    (hknown : before.HoldsKnown known world)
    (hextends : before.Extends after) : after.HoldsKnown known world :=
  fun value hvalue => (hknown value hvalue).extends hextends

theorem Run.compose_apply (left right : Value) (machine : Machine World) :
    Run.compose left right machine =
      match machine.heap.compose left right with
      | .ok made => (.ok (.ok made.1), { machine with heap := made.2 })
      | .error cause => (.ok (.error cause), machine) := by
  unfold Run.compose
  rw [bind_apply]
  simp only [readHeap, read_apply]
  cases machine.heap.compose left right <;> rfl

section Replies

variable {Shown : Type} {known : World → Value → Prop}
  {custody : Custody Shown} {site : Site} {view : World → Shown}

private theorem holds_made {base middle : Store} {made : Value}
    {given : Value → Prop} (hgiven : ∀ value, given value → base.Holds value)
    (hgrows : base.Grows middle) (hmade : middle.Holds made) :
    ∀ value, value = made ∨ given value → middle.Holds value := by
  rintro value (rfl | hvalue)
  · exact hmade
  · exact (hgiven value hvalue).extends hgrows.toExtends

/-- A reply that uses what is supplied is safe.  The induction is on the reply,
and the store grows with each array and function that it makes. -/
theorem Reply.DrawsOn.safe_carryOut {origin : Store} {supply : Supply}
    (hhonours : origin.Honours supply)
    (hkeeps : ∀ store world, origin.Extends store →
      store.HoldsKnown known world → custody.Keeps store (view world))
    {reply : Reply World} {base : Store} (horigin : origin.Extends base)
    {given : Value → Prop} (hgiven : ∀ value, given value → base.Holds value)
    {machine : Machine Shown} (hat : machine.At custody site base)
    (hdraws : reply.DrawsOn supply known machine.heap given) :
    ∃ after, base.Grows after ∧
      (carryOut (reply.map view) machine).2.At custody site after ∧
      (carryOut (reply.map view) machine).1.Safe after after.Holds := by
  induction reply generalizing base given machine with
  | answer result world =>
      obtain ⟨hanswer, hknown⟩ := hdraws
      rw [hat.heap_eq] at hanswer hknown
      have hheld : base.HoldsKnown known world := fun value hvalue =>
        (hhonours.extends horigin).holds hat.sound hgiven (hknown value hvalue)
      have hat' : Machine.At custody site base
          { machine with world := view world } :=
        ⟨hat.site_eq, hat.heap_eq, hat.sound,
          hkeeps base world horigin hheld⟩
      have hvalues : ∀ value ∈ answerValues result, base.Holds value :=
        fun value hvalue =>
          (hhonours.extends horigin).holds hat.sound hgiven (hanswer value hvalue)
      cases result with
      | ok value =>
          exact ⟨base, .refl base, hat', hvalues value List.mem_cons_self⟩
      | error exit => exact ⟨base, .refl base, hat', hvalues⟩
  | array content next ih =>
      obtain ⟨hcontent, hrest⟩ := hdraws
      rw [hat.heap_eq] at hcontent
      have hheld := (hhonours.extends horigin).holdsAll hat.sound hgiven hcontent
      obtain ⟨middle, hmiddle, hat', hmade⟩ :=
        safe_newArray hheld machine base (.refl base) hat
      have hheld' : middle.Holds (machine.heap.addArray content).1 := hmade
      obtain ⟨after, hafter, hend⟩ := ih _
        (horigin.trans hmiddle.toExtends) (holds_made hgiven hmiddle hheld')
        hat' hrest
      exact ⟨after, hmiddle.trans hafter, hend⟩
  | compose left right next ih =>
      unfold Reply.DrawsOn at hdraws
      obtain ⟨hleft, hright, hrest⟩ := hdraws
      rw [hat.heap_eq] at hleft hright
      obtain ⟨middle, hmiddle, hat', hmade⟩ := safe_compose
        ((hhonours.extends horigin).holds hat.sound hgiven hleft)
        ((hhonours.extends horigin).holds hat.sound hgiven hright)
        machine base (.refl base) hat
      have hlater := horigin.trans hmiddle.toExtends
      have hstep := Run.compose_apply left right machine
      rw [Reply.map, carryOut, bind_apply]
      cases hcompose : machine.heap.compose left right with
      | error cause =>
          rw [hcompose] at hrest hstep
          rw [hstep] at hat' ⊢
          have hold : ∀ value, given value → middle.Holds value :=
            fun value hvalue => (hgiven value hvalue).extends hmiddle.toExtends
          obtain ⟨after, hafter, hend⟩ := ih _ hlater hold hat' hrest
          exact ⟨after, hmiddle.trans hafter, hend⟩
      | ok made =>
          rw [hcompose] at hrest hstep
          rw [hstep] at hat' hmade ⊢
          obtain ⟨after, hafter, hend⟩ := ih _ hlater
            (holds_made hgiven hmiddle hmade) hat' hrest
          exact ⟨after, hmiddle.trans hafter, hend⟩
  | native name next ih =>
      obtain ⟨middle, hmiddle, hat', hmade⟩ :=
        safe_newNative name machine base (.refl base) hat
      have hheld : middle.Holds (.function machine.heap.functions.size) := hmade
      obtain ⟨after, hafter, hend⟩ := ih _
        (horigin.trans hmiddle.toExtends) (holds_made hgiven hmiddle hheld)
        hat' hdraws
      exact ⟨after, hmiddle.trans hafter, hend⟩

end Replies

end ChainScript
