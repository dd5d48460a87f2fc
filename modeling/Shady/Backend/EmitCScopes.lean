import Shady.Backend.Scopes
import Shady.Backend.EmitCNested

/-!
# Which functions are emitted

A value can be emitted when the parameters it spells are registered and the printers around
it are open. Those of a tail are registered after its text, so that a well-formed function
is emitted exactly when it spells no parameter of a tail.
-/

set_option autoImplicit false

namespace Shady.Backend

open Imperative

theorem isSome_bind_iff {α β : Type} {x : Option α} {f : α → Option β} {P Q : Prop}
    (first : x.isSome = true ↔ P) (rest : ∀ a, x = some a → ((f a).isSome = true ↔ Q)) :
    (x.bind f).isSome = true ↔ P ∧ Q := by
  cases x with
  | none =>
      constructor
      · exact nofun
      · exact fun both => nomatch first.mpr both.1
  | some a =>
      rw [Option.bind_some, rest a rfl]
      exact ⟨fun holds => ⟨first.mp rfl, holds⟩, And.right⟩

section Advances
variable {Op Fn : Type}

def Value.operandList : Value Op → List (Value Op)
  | .primOp _ operands => operands.toList
  | .inlined _ operands => operands.toList
  | _ => []

/-- What is registered has its operands registered. -/
def FnEmitter.Closed (fn : FnEmitter Op Fn) : Prop :=
  ∀ v, fn.emittedTerms v ≠ none → ∀ u ∈ v.operandList, fn.emittedTerms u ≠ none

def FnEmitter.IsOpen (fn : FnEmitter Op Fn) (place : Abs) : Prop :=
  fn.instructionPrinters place ≠ none

/-- Nothing gets lost, and only parameters of the inner places are registered. -/
structure Advances (inner outer : Abs → Prop) (fn fn' : FnEmitter Op Fn) : Prop where
  stays : ∀ v, fn.emittedTerms v ≠ none → fn'.emittedTerms v ≠ none
  params : ∀ place i, ¬ inner place → fn.emittedTerms (.param place i) = none →
    fn'.emittedTerms (.param place i) = none
  opens : ∀ place, outer place → fn.IsOpen place → fn'.IsOpen place
  closed : fn.Closed → fn'.Closed

variable {fn fn' fn'' : FnEmitter Op Fn} {inner outer : Abs → Prop} {abs : Abs}

/-- What neither registers a parameter nor closes a printer. -/
abbrev Grows (fn fn' : FnEmitter Op Fn) : Prop := Advances (fun _ => False) (fun _ => True) fn fn'

theorem Advances.refl (inner outer : Abs → Prop) (fn : FnEmitter Op Fn) : Advances inner outer fn fn :=
  ⟨fun _ found => found, fun _ _ _ missing => missing, fun _ _ isOpen => isOpen, id⟩

theorem Advances.trans (before : Advances inner outer fn fn') (after : Advances inner outer fn' fn'') :
    Advances inner outer fn fn'' where
  stays v found := after.stays v (before.stays v found)
  params place i notInner missing := after.params place i notInner (before.params place i notInner missing)
  opens place isOuter isOpen := after.opens place isOuter (before.opens place isOuter isOpen)
  closed wasClosed := after.closed (before.closed wasClosed)

theorem Advances.mono {more fewer : Abs → Prop} (advances : Advances inner outer fn fn')
    (wider : ∀ place, inner place → more place) (narrower : ∀ place, fewer place → outer place) :
    Advances more fewer fn fn' where
  stays := advances.stays
  params place i notInner := advances.params place i fun isInner => notInner (wider place isInner)
  opens place isOuter := advances.opens place (narrower place isOuter)
  closed := advances.closed

theorem Advances.of_grows (grows : Grows fn fn') : Advances inner outer fn fn' :=
  grows.mono (fun _ impossible => impossible.elim) fun _ _ => trivial

theorem isOpen_update {place : Abs} {printed : List (CStmt Op Fn)}
    (isOpen : place = abs ∨ fn.IsOpen place) :
    ({ fn with instructionPrinters := Function.update fn.instructionPrinters abs (some printed) } :
      FnEmitter Op Fn).IsOpen place := by
  by_cases here : place = abs
  · simp [FnEmitter.IsOpen, here]
  · simpa [FnEmitter.IsOpen, here] using isOpen.resolve_left here

theorem advances_print {text : CStmt Op Fn} (emitted : fn.print abs text = some fn') :
    Grows fn fn' := by
  rw [FnEmitter.print, Option.map_eq_some_iff] at emitted
  obtain ⟨printed, -, rfl⟩ := emitted
  exact ⟨fun _ found => found, fun _ _ _ missing => missing,
    fun _ _ isOpen => isOpen_update (.inr isOpen), id⟩

theorem advances_makeUniqueName : Grows fn fn.makeUniqueName.2 :=
  ⟨fun _ found => found, fun _ _ _ missing => missing, fun _ _ isOpen => isOpen, id⟩

theorem advances_openPrinter : Grows fn (fn.openPrinter abs) :=
  ⟨fun _ found => found, fun _ _ _ missing => missing,
    fun _ _ isOpen => isOpen_update (.inr isOpen), id⟩

theorem openPrinter_isOpen : (fn.openPrinter abs).IsOpen abs := isOpen_update (.inl rfl)

theorem advances_closePrinter {text : CStmt Op Fn} (elsewhere : ¬ outer abs)
    (closed : fn.closePrinter abs = some (text, fn')) : Advances inner outer fn fn' := by
  rw [FnEmitter.closePrinter, Option.map_eq_some_iff] at closed
  obtain ⟨printed, -, equal⟩ := closed
  cases equal
  refine ⟨fun _ found => found, fun _ _ _ missing => missing, ?_, id⟩
  intro place isOuter isOpen
  have other : place ≠ abs := fun here => elsewhere (here ▸ isOuter)
  simpa [FnEmitter.IsOpen, other] using isOpen

variable [DecidableEq Op]

theorem registered_registerEmitted {u v : Value Op} {term : Expr Op} :
    (fn.registerEmitted v term).emittedTerms u ≠ none ↔ u = v ∨ fn.emittedTerms u ≠ none := by
  by_cases same : u = v
  · rw [same, registerEmitted_self]
    simp
  · rw [registerEmitted_of_ne same]
    simp [same]

theorem advances_register {v : Value Op} {term : Expr Op}
    (isInner : ∀ place i, v = .param place i → inner place)
    (operands : ∀ u ∈ v.operandList, fn.emittedTerms u ≠ none) :
    Advances inner outer fn (fn.registerEmitted v term) where
  stays u found := registered_registerEmitted.mpr (.inr found)
  params place i notInner missing := by
    rw [registerEmitted_of_ne fun same => notInner (isInner place i same.symm)]
    exact missing
  opens _ _ isOpen := isOpen
  closed wasClosed u found w member := by
    refine registered_registerEmitted.mpr (.inr ?_)
    cases registered_registerEmitted.mp found with
    | inl same => exact operands w (same ▸ member)
    | inr before => exact wasClosed u before w member

theorem advances_registerParams {place : Abs} :
    ∀ (xs : List Nat) (i : Nat) (fn : FnEmitter Op Fn),
      Advances (· = place) (fun _ => True) fn (FnEmitter.registerParams place i xs fn)
  | [], _, fn => Advances.refl _ _ fn
  | x :: xs, i, fn => by
      have first : Advances (· = place) (fun _ => True) fn (fn.registerEmitted (.param place i) (.var x)) :=
        advances_register (fun _ _ same => (Value.param.inj same).1.symm) nofun
      exact first.trans (advances_registerParams xs (i + 1) _)

/-! ## The emission of values -/

mutual
theorem emitValue_advances : ∀ (v : Value Op) {fn fn' : FnEmitter Op Fn} {term : Expr Op},
    emitValue v fn = some (term, fn') →
    Grows fn fn' ∧ fn'.emittedTerms v ≠ none
  | .param place i, fn, fn', term, emitted => by
      cases foundOr_eq_some.mp emitted with
      | inl found => rw [found.2, found.1]; exact ⟨Advances.refl _ _ _, Option.some_ne_none _⟩
      | inr missing => cases missing.2
  | .load place k ptr, fn, fn', term, emitted => by
      cases foundOr_eq_some.mp emitted with
      | inl found => rw [found.2, found.1]; exact ⟨Advances.refl _ _ _, Option.some_ne_none _⟩
      | inr missing => cases missing.2
  | .result place k, fn, fn', term, emitted => by
      cases foundOr_eq_some.mp emitted with
      | inl found => rw [found.2, found.1]; exact ⟨Advances.refl _ _ _, Option.some_ne_none _⟩
      | inr missing => cases missing.2
  | .literal n, fn, fn', term, emitted => by
      cases foundOr_eq_some.mp emitted with
      | inl found => rw [found.2, found.1]; exact ⟨Advances.refl _ _ _, Option.some_ne_none _⟩
      | inr missing =>
          cases missing.2
          exact ⟨advances_register nofun nofun, registered_registerEmitted.mpr (.inl rfl)⟩
  | .primOp op operands, fn, fn', term, emitted => by
      cases foundOr_eq_some.mp emitted with
      | inl found => rw [found.2, found.1]; exact ⟨Advances.refl _ _ _, Option.some_ne_none _⟩
      | inr missing =>
          obtain ⟨⟨texts, next⟩, ofOperands, bound⟩ := Option.bind_eq_some_iff.mp missing.2
          obtain ⟨printed, ofPrint, equal⟩ := Option.map_eq_some_iff.mp bound
          cases equal
          obtain ⟨first, registered⟩ := emitOperands_advances operands ofOperands
          have second := first.trans (advances_makeUniqueName.trans (advances_print ofPrint))
          refine ⟨second.trans (advances_register nofun ?_), registered_registerEmitted.mpr (.inl rfl)⟩
          exact fun u member =>
            (advances_makeUniqueName.trans (advances_print ofPrint)).stays u (registered u member)
  | .inlined op operands, fn, fn', term, emitted => by
      cases foundOr_eq_some.mp emitted with
      | inl found => rw [found.2, found.1]; exact ⟨Advances.refl _ _ _, Option.some_ne_none _⟩
      | inr missing =>
          obtain ⟨⟨texts, next⟩, ofOperands, equal⟩ := Option.map_eq_some_iff.mp missing.2
          cases equal
          obtain ⟨first, registered⟩ := emitOperands_advances operands ofOperands
          exact ⟨first.trans (advances_register nofun registered),
            registered_registerEmitted.mpr (.inl rfl)⟩
theorem emitOperands_advances : ∀ (vs : Operands Op) {fn fn' : FnEmitter Op Fn} {texts : Exprs Op},
    emitOperands vs fn = some (texts, fn') →
    Grows fn fn' ∧ ∀ u ∈ vs.toList, fn'.emittedTerms u ≠ none
  | .nil, fn, fn', texts, emitted => by
      cases emitted
      exact ⟨Advances.refl _ _ _, nofun⟩
  | .cons head tail, fn, fn', texts, emitted => by
      obtain ⟨⟨text, next⟩, ofHead, rest⟩ := Option.bind_eq_some_iff.mp emitted
      obtain ⟨⟨texts', last⟩, ofTail, equal⟩ := Option.map_eq_some_iff.mp rest
      cases equal
      obtain ⟨first, foundHead⟩ := emitValue_advances head ofHead
      obtain ⟨second, foundTail⟩ := emitOperands_advances tail ofTail
      exact ⟨first.trans second, List.forall_mem_cons.mpr ⟨second.stays head foundHead, foundTail⟩⟩
end

end Advances

/-! ## What is registered of what is known -/

section Values
variable {Op Fn : Type} {fn fn' : FnEmitter Op Fn} {known : List (Value Op)} {outer : Abs → Prop}
variable {abs : Abs}

/-- All that is known is registered, except the parameters of the tails around. -/
structure Tracks (known : List (Value Op)) (outer : Abs → Prop) (fn : FnEmitter Op Fn) : Prop where
  ready : ∀ v ∈ known, v.tailFree = true → fn.emittedTerms v ≠ none
  missing : ∀ place i, .param (2 :: place) i ∈ known → fn.emittedTerms (.param (2 :: place) i) = none
  closed : fn.Closed
  opens : ∀ place, outer place → fn.IsOpen place

theorem Tracks.advances {inner : Abs → Prop} (tracks : Tracks known outer fn)
    (advances : Advances inner outer fn fn')
    (apart : ∀ place i, .param (2 :: place) i ∈ known → ¬ inner (2 :: place)) :
    Tracks known outer fn' where
  ready v member free := advances.stays v (tracks.ready v member free)
  missing place i member :=
    advances.params _ i (apart place i member) (tracks.missing place i member)
  closed := advances.closed tracks.closed
  opens place isOuter := advances.opens place isOuter (tracks.opens place isOuter)

theorem Tracks.grows (tracks : Tracks known outer fn) (grows : Grows fn fn') :
    Tracks known outer fn' := by
  have advances : Advances (fun _ => False) outer fn fn' := Advances.of_grows grows
  exact tracks.advances advances fun _ _ _ => id

theorem KnownAround.param {place : Abs} {i : Nat} (around : KnownAround known abs)
    (member : .param place i ∈ known) : place <:+ abs :=
  around _ member place (List.mem_singleton.mpr rfl)

theorem Operands.tailFree_iff : ∀ vs : Operands Op,
    vs.tailFree = true ↔ ∀ v ∈ vs.toList, v.tailFree = true
  | .nil => by simp [Operands.tailFree, Operands.toList]
  | .cons head tail => by
      rw [Operands.tailFree, Bool.and_eq_true, Operands.tailFree_iff tail]
      simp [Operands.toList]

theorem tailFree_param {place : Abs} {i : Nat}
    (spelled : (Value.param place i : Value Op).tailFree = false) : ∃ construct, place = 2 :: construct := by
  rw [Value.tailFree, decide_eq_false_iff_not, not_not] at spelled
  exact List.head?_eq_some_iff.mp spelled

theorem Tracks.param_iff (tracks : Tracks known outer fn) {place : Abs} {i : Nat}
    (member : .param place i ∈ known) :
    fn.emittedTerms (.param place i) ≠ none ↔ (Value.param place i : Value Op).tailFree = true := by
  constructor
  · intro found
    cases free : (Value.param place i : Value Op).tailFree with
    | true => rfl
    | false =>
        obtain ⟨construct, rfl⟩ := tailFree_param free
        exact absurd (tracks.missing _ _ member) found
  · exact tracks.ready _ member

variable [DecidableEq Op]

mutual
theorem Tracks.tailFree_of_registered (tracks : Tracks known outer fn) :
    ∀ v : Value Op, v.wellScoped known = true → fn.emittedTerms v ≠ none → v.tailFree = true
  | .param place i, inScope, found => (tracks.param_iff (of_decide_eq_true inScope)).mp found
  | .literal n, _, _ => rfl
  | .load place k ptr, _, _ => rfl
  | .result place k, _, _ => rfl
  | .primOp op operands, inScope, found =>
      Tracks.tailFree_of_operands tracks operands inScope (tracks.closed _ found)
  | .inlined op operands, inScope, found =>
      Tracks.tailFree_of_operands tracks operands inScope (tracks.closed _ found)
theorem Tracks.tailFree_of_operands (tracks : Tracks known outer fn) :
    ∀ vs : Operands Op, vs.wellScoped known = true →
      (∀ v ∈ vs.toList, fn.emittedTerms v ≠ none) → vs.tailFree = true
  | .nil, _, _ => rfl
  | .cons head tail, inScope, found => by
      rw [Operands.wellScoped, Bool.and_eq_true] at inScope
      obtain ⟨foundHead, foundTail⟩ := List.forall_mem_cons.mp found
      rw [Operands.tailFree, Bool.and_eq_true]
      exact ⟨Tracks.tailFree_of_registered tracks head inScope.1 foundHead,
        Tracks.tailFree_of_operands tracks tail inScope.2 foundTail⟩
end

omit [DecidableEq Op] in
theorem foundOr_isSome {v : Value Op} {emit : Option (Expr Op × FnEmitter Op Fn)} :
    (fn.foundOr v emit).isSome = true ↔ fn.emittedTerms v ≠ none ∨ emit.isSome = true := by
  rw [FnEmitter.foundOr]
  cases fn.emittedTerms v with
  | none => simp
  | some term => simp

omit [DecidableEq Op] in
theorem print_isSome {text : CStmt Op Fn} : (fn.print abs text).isSome = true ↔ fn.IsOpen abs := by
  rw [FnEmitter.print, Option.isSome_map, FnEmitter.IsOpen, Option.isSome_iff_ne_none]

mutual
/-- A value is emitted when it spells no parameter of a tail. -/
theorem emitValue_isSome : ∀ (v : Value Op) {fn : FnEmitter Op Fn}, KnownAround known abs →
    Tracks known (around abs) fn → v.wellScoped known = true →
    ((emitValue v fn).isSome = true ↔ v.tailFree = true)
  | .param place i, fn, _, tracks, inScope => by
      rw [emitValue, foundOr_isSome, ← tracks.param_iff (of_decide_eq_true inScope)]
      simp
  | .load place k ptr, fn, _, tracks, inScope => by
      have found := tracks.ready _ (of_decide_eq_true inScope) rfl
      rw [emitValue, foundOr_isSome]
      exact ⟨fun _ => rfl, fun _ => .inl found⟩
  | .result place k, fn, _, tracks, inScope => by
      have found := tracks.ready _ (of_decide_eq_true inScope) rfl
      rw [emitValue, foundOr_isSome]
      exact ⟨fun _ => rfl, fun _ => .inl found⟩
  | .literal n, fn, _, _, _ => by
      rw [emitValue, foundOr_isSome]
      exact ⟨fun _ => rfl, fun _ => .inr rfl⟩
  | .primOp op operands, fn, known', tracks, inScope => by
      have home : (Value.primOp op operands).home <:+ abs :=
        Value.Within.home (Value.within_of_scoped known' (.primOp op operands) inScope)
      have ofOperands := emitOperands_isSome operands known' tracks inScope
      have bound : ((emitOperands operands fn).bind fun emitted =>
          emitted.2.bindIntermediaryResult (Value.primOp op operands).home (.primOp op operands)
            (.apply op emitted.1)).isSome = true ↔ operands.tailFree = true ∧ True := by
        refine isSome_bind_iff ofOperands fun emitted ofEmit => ?_
        obtain ⟨advances, -⟩ := emitOperands_advances operands ofEmit
        rw [FnEmitter.bindIntermediaryResult, Option.isSome_map, print_isSome, iff_true]
        exact advances.opens _ trivial (tracks.opens _ home)
      rw [emitValue, foundOr_isSome, bound, and_true, Value.tailFree]
      refine ⟨fun either => either.elim (fun found => ?_) id, .inr⟩
      exact Tracks.tailFree_of_registered tracks (.primOp op operands) inScope found
  | .inlined op operands, fn, known', tracks, inScope => by
      have ofOperands := emitOperands_isSome operands known' tracks inScope
      rw [emitValue, foundOr_isSome, Option.isSome_map, ofOperands, Value.tailFree]
      refine ⟨fun either => either.elim (fun found => ?_) id, .inr⟩
      exact Tracks.tailFree_of_registered tracks (.inlined op operands) inScope found
theorem emitOperands_isSome : ∀ (vs : Operands Op) {fn : FnEmitter Op Fn}, KnownAround known abs →
    Tracks known (around abs) fn → vs.wellScoped known = true →
    ((emitOperands vs fn).isSome = true ↔ vs.tailFree = true)
  | .nil, fn, _, _, _ => ⟨fun _ => rfl, fun _ => rfl⟩
  | .cons head tail, fn, known', tracks, inScope => by
      rw [Operands.wellScoped, Bool.and_eq_true] at inScope
      rw [emitOperands, Operands.tailFree, Bool.and_eq_true]
      refine isSome_bind_iff (emitValue_isSome head known' tracks inScope.1) fun first ofHead => ?_
      obtain ⟨advances, -⟩ := emitValue_advances head ofHead
      rw [Option.isSome_map, emitOperands_isSome tail known' (tracks.grows advances) inScope.2]
end

end Values

end Shady.Backend
