import Shady.Backend.EmitC
import Mathlib.Tactic

/-!
# Registered terms

What the terms of an emitter are like, and what they evaluate to when its variables hold
the values they stand for.
-/

set_option autoImplicit false

namespace Shady.Backend

open Imperative

section Places
variable {Op Fn : Type}

/-! ## The abstractions a value needs -/

mutual
def Value.places : Value Op → List Abs
  | .param abs _ => [abs]
  | .literal _ => []
  | .load abs _ ptr => abs :: ptr.places
  | .result abs _ => [abs]
  | .primOp _ operands => operands.places
  | .inlined _ operands => operands.places
def Operands.places : Operands Op → List Abs
  | .nil => []
  | .cons head tail => head.places ++ tail.places
end

/-- All that the value needs is around `abs`. -/
def Value.Within (v : Value Op) (abs : Abs) : Prop := ∀ place ∈ v.places, place <:+ abs

/-- A schedule covers places when it is the innermost of them. -/
def Covers (abs : Abs) (places : List Abs) : Option Abs → Prop
  | none => places = []
  | some home => home <:+ abs ∧ ∀ place ∈ places, place <:+ home

theorem covers_scheduleAfter {abs : Abs} {before after : List Abs} {scheduled req : Option Abs}
    (first : Covers abs before scheduled) (second : Covers abs after req) :
    Covers abs (before ++ after) (scheduleAfter scheduled req) := by
  cases req with
  | none =>
      have none_after : after = [] := second
      rw [none_after, List.append_nil]
      cases scheduled <;> exact first
  | some req =>
      cases scheduled with
      | none =>
          have none_before : before = [] := first
          rw [none_before, List.nil_append]
          exact second
      | some old =>
          rw [scheduleAfter]
          split
          case isTrue shorter =>
            refine ⟨second.1, ?_⟩
            have outer : old <:+ req :=
              List.suffix_of_suffix_length_le first.1 second.1 shorter.le
            intro place member
            cases List.mem_append.mp member with
            | inl inBefore => exact (first.2 place inBefore).trans outer
            | inr inAfter => exact second.2 place inAfter
          case isFalse longer =>
            refine ⟨first.1, ?_⟩
            have outer : req <:+ old :=
              List.suffix_of_suffix_length_le second.1 first.1 (not_lt.mp longer)
            intro place member
            cases List.mem_append.mp member with
            | inl inBefore => exact first.2 place inBefore
            | inr inAfter => exact (second.2 place inAfter).trans outer

mutual
theorem Value.covers {abs : Abs} :
    ∀ v : Value Op, v.Within abs → Covers abs v.places v.schedule
  | .param place _, within => ⟨within place (by simp [Value.places]), by simp [Value.places]⟩
  | .literal _, _ => rfl
  | .load place _ ptr, within => by
      have own : Covers abs [place] (some place) :=
        ⟨within place (by simp [Value.places]), by simp⟩
      have rest := Value.covers ptr fun p member => within p (by simp [Value.places, member])
      exact covers_scheduleAfter own rest
  | .result place _, within => ⟨within place (by simp [Value.places]), by simp [Value.places]⟩
  | .primOp _ operands, within => Operands.covers operands none [] rfl within
  | .inlined _ operands, within => Operands.covers operands none [] rfl within
theorem Operands.covers {abs : Abs} :
    ∀ (vs : Operands Op) (scheduled : Option Abs) (before : List Abs), Covers abs before scheduled →
      (∀ place ∈ vs.places, place <:+ abs) → Covers abs (before ++ vs.places) (vs.schedule scheduled)
  | .nil, scheduled, before, start, _ => by
      rw [Operands.places, List.append_nil]
      exact start
  | .cons head tail, scheduled, before, start, within => by
      have first := Value.covers head fun p member => within p (by simp [Operands.places, member])
      have rest := Operands.covers tail _ _ (covers_scheduleAfter start first)
        fun p member => within p (by simp [Operands.places, member])
      rw [Operands.places, ← List.append_assoc]
      exact rest
end

theorem Value.Within.home {v : Value Op} {abs : Abs} (within : v.Within abs) : v.home <:+ abs := by
  have covered := Value.covers v within
  cases placed : v.schedule with
  | none => simp [Value.home, placed]
  | some home =>
      rw [placed] at covered
      simpa [Value.home, placed] using covered.1

/-- All that a value needs is around its home. -/
theorem Value.Within.at_home {v : Value Op} {abs : Abs} (within : v.Within abs) :
    v.Within v.home := by
  have covered := Value.covers v within
  intro place member
  cases placed : v.schedule with
  | none =>
      rw [placed] at covered
      have noPlace : v.places = [] := covered
      simp [noPlace] at member
  | some home =>
      rw [placed] at covered
      simpa [Value.home, placed] using covered.2 place member

theorem Value.Within.mono {v : Value Op} {abs inner : Abs} (within : v.Within abs)
    (inside : abs <:+ inner) : v.Within inner :=
  fun place member => (within place member).trans inside

theorem not_below_self {abs : Abs} {step : Nat} : ¬ (step :: abs) <:+ abs := by
  intro inside
  have shorter := inside.length_le
  simp at shorter

theorem step_eq_of_below {abs place : Abs} {step step' : Nat} (first : (step :: abs) <:+ place)
    (second : (step' :: abs) <:+ place) : step = step' := by
  have same := (List.suffix_of_suffix_length_le first second (by simp)).eq_of_length (by simp)
  exact (List.cons.inj same).1

/-! ## Subterms -/

theorem Operands.subterms_eq : ∀ vs : Operands Op, vs.subterms = subtermsOf vs.toList
  | .nil => rfl
  | .cons head tail => by
      rw [Operands.subterms, Operands.subterms_eq tail]
      rfl

theorem subtermsOf_append (vs ws : List (Value Op)) :
    subtermsOf (vs ++ ws) = subtermsOf vs ++ subtermsOf ws := List.flatMap_append

theorem subtermsOf_singleton (v : Value Op) : subtermsOf [v] = v.subterms := by
  simp [subtermsOf]

theorem subtermsOf_mono {vs ws : List (Value Op)} (included : vs ⊆ ws) :
    subtermsOf vs ⊆ subtermsOf ws := by
  intro u member
  obtain ⟨v, inside, below⟩ := List.mem_flatMap.mp member
  exact List.mem_flatMap.mpr ⟨v, included inside, below⟩

theorem Value.self_mem_subterms : ∀ v : Value Op, v ∈ v.subterms
  | .param .. => by simp [Value.subterms]
  | .literal .. => by simp [Value.subterms]
  | .load .. => by simp [Value.subterms]
  | .result .. => by simp [Value.subterms]
  | .primOp .. => by simp [Value.subterms]
  | .inlined .. => by simp [Value.subterms]

mutual
theorem Value.sizeOf_subterm {u : Value Op} : ∀ v : Value Op, u ∈ v.subterms → sizeOf u ≤ sizeOf v
  | .param abs i, member => by
      rw [List.mem_singleton.mp member]
  | .literal n, member => by
      rw [List.mem_singleton.mp member]
  | .result abs k, member => by
      rw [List.mem_singleton.mp member]
  | .load abs k ptr, member => by
      cases List.mem_cons.mp member with
      | inl self => rw [self]
      | inr below =>
          have smaller := Value.sizeOf_subterm ptr below
          rw [Value.load.sizeOf_spec]
          omega
  | .primOp op operands, member => by
      cases List.mem_cons.mp member with
      | inl self => rw [self]
      | inr below =>
          have smaller := Operands.sizeOf_subterm operands below
          rw [Value.primOp.sizeOf_spec]
          omega
  | .inlined op operands, member => by
      cases List.mem_cons.mp member with
      | inl self => rw [self]
      | inr below =>
          have smaller := Operands.sizeOf_subterm operands below
          rw [Value.inlined.sizeOf_spec]
          omega
theorem Operands.sizeOf_subterm {u : Value Op} :
    ∀ vs : Operands Op, u ∈ vs.subterms → sizeOf u ≤ sizeOf vs
  | .nil, member => by simp [Operands.subterms] at member
  | .cons head tail, member => by
      rw [Operands.cons.sizeOf_spec]
      cases List.mem_append.mp member with
      | inl inHead =>
          have smaller := Value.sizeOf_subterm head inHead
          omega
      | inr inTail =>
          have smaller := Operands.sizeOf_subterm tail inTail
          omega
end

theorem primOp_not_below (op : Op) (operands : Operands Op) :
    Value.primOp op operands ∉ operands.subterms := by
  intro below
  have smaller := Operands.sizeOf_subterm operands below
  rw [Value.primOp.sizeOf_spec] at smaller
  omega

theorem inlined_not_below (op : Op) (operands : Operands Op) :
    Value.inlined op operands ∉ operands.subterms := by
  intro below
  have smaller := Operands.sizeOf_subterm operands below
  rw [Value.inlined.sizeOf_spec] at smaller
  omega

end Places

/-! ## The shape of a term -/

section Shapes
variable {Op Fn : Type}

def Operands.texts (terms : Value Op → Option (Expr Op)) : Operands Op → Option (Exprs Op)
  | .nil => some .nil
  | .cons head tail =>
      (terms head).bind fun text => (tail.texts terms).map fun rest => .cons text rest

def Value.Shaped (terms : Value Op → Option (Expr Op)) : Value Op → Expr Op → Prop
  | .param _ _, term => ∃ x, term = .var x
  | .literal n, term => term = .literal n
  | .load _ _ ptr, term => ∃ address, terms ptr = some address ∧ term = .deref address
  | .result _ _, term => ∃ x, term = .var x
  | .primOp _ operands, term => (∃ texts, operands.texts terms = some texts) ∧ ∃ x, term = .var x
  | .inlined op operands, term =>
      ∃ texts, operands.texts terms = some texts ∧ term = .apply op texts

/-- What the terms of an emitter are like at every moment. -/
structure FnEmitter.Wf (fn : FnEmitter Op Fn) : Prop where
  shaped : ∀ v term, fn.emittedTerms v = some term → v.Shaped fn.emittedTerms term
  named : ∀ v x, fn.emittedTerms v = some (.var x) → x < fn.uniqueName
  distinct : ∀ u v x, fn.emittedTerms u = some (.var x) → fn.emittedTerms v = some (.var x) → u = v
  placed : ∀ v term, fn.emittedTerms v = some term → v.Within v.home

def Extends (terms terms' : Value Op → Option (Expr Op)) : Prop :=
  ∀ v term, terms v = some term → terms' v = some term

theorem Extends.trans {first second third : Value Op → Option (Expr Op)}
    (before : Extends first second) (after : Extends second third) : Extends first third :=
  fun v term found => after v term (before v term found)

theorem Extends.none {terms terms' : Value Op → Option (Expr Op)} (grows : Extends terms terms')
    {v : Value Op} (missing : terms' v = none) : terms v = none := by
  cases found : terms v with
  | none => rfl
  | some term => rw [grows v term found] at missing; cases missing

theorem Operands.texts_mono {terms terms' : Value Op → Option (Expr Op)}
    (grows : Extends terms terms') : ∀ {vs : Operands Op} {texts : Exprs Op},
      vs.texts terms = some texts → vs.texts terms' = some texts
  | .nil, _, found => found
  | .cons head tail, texts, found => by
      simp only [Operands.texts, Option.bind_eq_some_iff, Option.map_eq_some_iff] at found ⊢
      obtain ⟨text, ofHead, rest, ofTail, equal⟩ := found
      exact ⟨text, grows _ _ ofHead, rest, Operands.texts_mono grows ofTail, equal⟩

theorem Value.Shaped.mono {terms terms' : Value Op → Option (Expr Op)}
    (grows : Extends terms terms') :
    ∀ {v : Value Op} {term : Expr Op}, v.Shaped terms term → v.Shaped terms' term
  | .param .., _, shaped => shaped
  | .literal .., _, shaped => shaped
  | .result .., _, shaped => shaped
  | .load .., _, ⟨address, found, spelled⟩ => ⟨address, grows _ _ found, spelled⟩
  | .primOp .., _, ⟨⟨texts, found⟩, bound⟩ => ⟨⟨texts, Operands.texts_mono grows found⟩, bound⟩
  | .inlined .., _, ⟨texts, found, spelled⟩ => ⟨texts, Operands.texts_mono grows found, spelled⟩

mutual
/-- What is registered has all its subterms registered. -/
theorem Value.subterm_registered {fn : FnEmitter Op Fn} (wf : fn.Wf) {u : Value Op} :
    ∀ (v : Value Op) (term : Expr Op), fn.emittedTerms v = some term → u ∈ v.subterms →
      ∃ term', fn.emittedTerms u = some term'
  | .param abs i, term, found, member => ⟨term, by rw [List.mem_singleton.mp member]; exact found⟩
  | .literal n, term, found, member => ⟨term, by rw [List.mem_singleton.mp member]; exact found⟩
  | .result abs k, term, found, member => ⟨term, by rw [List.mem_singleton.mp member]; exact found⟩
  | .load abs k ptr, term, found, member => by
      cases List.mem_cons.mp member with
      | inl self => exact ⟨term, by rw [self]; exact found⟩
      | inr below =>
          obtain ⟨address, ofPtr, -⟩ := wf.shaped _ _ found
          exact Value.subterm_registered wf ptr address ofPtr below
  | .primOp op operands, term, found, member => by
      cases List.mem_cons.mp member with
      | inl self => exact ⟨term, by rw [self]; exact found⟩
      | inr below =>
          obtain ⟨⟨texts, spelled⟩, -⟩ := wf.shaped _ _ found
          exact Operands.subterm_registered wf operands texts spelled below
  | .inlined op operands, term, found, member => by
      cases List.mem_cons.mp member with
      | inl self => exact ⟨term, by rw [self]; exact found⟩
      | inr below =>
          obtain ⟨texts, spelled, -⟩ := wf.shaped _ _ found
          exact Operands.subterm_registered wf operands texts spelled below
theorem Operands.subterm_registered {fn : FnEmitter Op Fn} (wf : fn.Wf) {u : Value Op} :
    ∀ (vs : Operands Op) (texts : Exprs Op), vs.texts fn.emittedTerms = some texts →
      u ∈ vs.subterms → ∃ term', fn.emittedTerms u = some term'
  | .nil, _, _, member => by simp [Operands.subterms] at member
  | .cons head tail, texts, spelled, member => by
      simp only [Operands.texts, Option.bind_eq_some_iff, Option.map_eq_some_iff] at spelled
      obtain ⟨text, ofHead, rest, ofTail, -⟩ := spelled
      cases List.mem_append.mp member with
      | inl inHead => exact Value.subterm_registered wf head text ofHead inHead
      | inr inTail => exact Operands.subterm_registered wf tail rest ofTail inTail
end

end Shapes

/-! ## What terms evaluate to -/

section Evaluation
variable {Op Fn Word Mem : Type} (m : Machine Op (Effect Fn) Word Mem)

def Value.heldBy (held : Abs → Nat → Bool) : Value Op → Bool
  | .param abs i => held abs i
  | _ => true

/-- The variables that values of certain homes are bound to hold these values. -/
def Right (terms : Value Op → Option (Expr Op)) (env : Env Word) (held : Abs → Nat → Bool)
    (homes : Abs → Prop) (vars : Vars Word) : Prop :=
  ∀ v x, terms v = some (.var x) → homes v.home → v.heldBy held = true →
    ∃ word, v.eval m env = some word ∧ vars x = some (some word)

def around (abs : Abs) : Abs → Prop := fun home => home <:+ abs

def properlyAround (abs : Abs) : Abs → Prop := fun home => home <:+ abs ∧ home ≠ abs

variable {m}

theorem Right.mono {terms terms' : Value Op → Option (Expr Op)} {env : Env Word}
    {held held' : Abs → Nat → Bool} {homes homes' : Abs → Prop} {vars : Vars Word}
    (right : Right m terms' env held' homes' vars) (grows : Extends terms terms')
    (fewer : ∀ abs i, held abs i = true → held' abs i = true)
    (included : ∀ home, homes home → homes' home) : Right m terms env held homes vars := by
  intro v x bound home holds
  refine right v x (grows v _ bound) (included _ home) ?_
  cases v with
  | param abs i => exact fewer abs i holds
  | literal _ => rfl
  | load _ _ _ => rfl
  | result _ _ => rfl
  | primOp _ _ => rfl
  | inlined _ _ => rfl

theorem Right.around {terms : Value Op → Option (Expr Op)} {env : Env Word}
    {held : Abs → Nat → Bool} {abs : Abs} {vars : Vars Word}
    (outer : Right m terms env held (properlyAround abs) vars)
    (own : Right m terms env held (· = abs) vars) :
    Right m terms env held (Backend.around abs) vars := by
  intro v x bound home holds
  by_cases here : v.home = abs
  · exact own v x bound here holds
  · exact outer v x bound ⟨home, here⟩ holds

variable [DecidableEq Word]

mutual
/-- A term means its value, as long as the value is steady. -/
theorem Value.text_eval {fn : FnEmitter Op Fn} (wf : fn.Wf) {env : Env Word}
    {held : Abs → Nat → Bool} {abs : Abs} {vars : Vars Word} {mem : Mem}
    (right : Right m fn.emittedTerms env held (around abs) vars) :
    ∀ (v : Value Op) (term : Expr Op), fn.emittedTerms v = some term → v.Within abs →
      v.steady m held env mem = true →
      ∃ word, v.eval m env = some word ∧ term.eval m vars mem = some word
  | .param place i, term, found, within, steady => by
      obtain ⟨x, rfl⟩ := wf.shaped _ _ found
      obtain ⟨word, value, stored⟩ := right _ _ found within.home steady
      exact ⟨word, value, by rw [Expr.eval, stored]; rfl⟩
  | .literal n, term, found, within, steady => by
      cases wf.shaped _ _ found
      exact ⟨m.literal n, rfl, rfl⟩
  | .result place k, term, found, within, steady => by
      obtain ⟨x, rfl⟩ := wf.shaped _ _ found
      obtain ⟨word, value, stored⟩ := right _ _ found within.home rfl
      exact ⟨word, value, by rw [Expr.eval, stored]; rfl⟩
  | .primOp op operands, term, found, within, steady => by
      obtain ⟨-, x, rfl⟩ := wf.shaped _ _ found
      obtain ⟨word, value, stored⟩ := right _ _ found within.home rfl
      exact ⟨word, value, by rw [Expr.eval, stored]; rfl⟩
  | .load place k ptr, term, found, within, steady => by
      obtain ⟨address, ofPtr, rfl⟩ := wf.shaped _ _ found
      rw [Value.steady, Bool.and_eq_true] at steady
      obtain ⟨target, pointer, reads⟩ := Value.text_eval wf right ptr address ofPtr
        (fun p member => within p (by simp [Value.places, member])) steady.1
      cases loaded : (env.results place)[k]? with
      | none =>
          have impossible := steady.2
          rw [loaded] at impossible
          cases impossible
      | some word =>
          have content := steady.2
          rw [loaded, pointer] at content
          refine ⟨word, loaded, ?_⟩
          rw [Expr.eval, reads]
          exact congrArg some (of_decide_eq_true content)
  | .inlined op operands, term, found, within, steady => by
      obtain ⟨texts, spelled, rfl⟩ := wf.shaped _ _ found
      obtain ⟨words, values, reads⟩ := Operands.texts_eval wf right operands texts spelled within steady
      exact ⟨m.operate op words, by rw [Value.eval, values]; rfl, by rw [Expr.eval, reads]; rfl⟩
theorem Operands.texts_eval {fn : FnEmitter Op Fn} (wf : fn.Wf) {env : Env Word}
    {held : Abs → Nat → Bool} {abs : Abs} {vars : Vars Word} {mem : Mem}
    (right : Right m fn.emittedTerms env held (around abs) vars) :
    ∀ (vs : Operands Op) (texts : Exprs Op), vs.texts fn.emittedTerms = some texts →
      (∀ place ∈ vs.places, place <:+ abs) → vs.steady m held env mem = true →
      ∃ words, vs.eval m env = some words ∧ texts.eval m vars mem = some words
  | .nil, texts, spelled, _, _ => by
      cases spelled
      exact ⟨[], rfl, rfl⟩
  | .cons head tail, texts, spelled, within, steady => by
      simp only [Operands.texts, Option.bind_eq_some_iff, Option.map_eq_some_iff] at spelled
      obtain ⟨text, ofHead, rest, ofTail, rfl⟩ := spelled
      rw [Operands.steady, Bool.and_eq_true] at steady
      obtain ⟨word, value, reads⟩ := Value.text_eval wf right head text ofHead
        (fun p member => within p (by simp [Operands.places, member])) steady.1
      obtain ⟨words, values, readsRest⟩ := Operands.texts_eval wf right tail rest ofTail
        (fun p member => within p (by simp [Operands.places, member])) steady.2
      refine ⟨word :: words, ?_, ?_⟩
      · rw [Operands.eval, value, values]
        rfl
      · rw [Exprs.eval, reads, readsRest]
        rfl
end

end Evaluation

end Shady.Backend
