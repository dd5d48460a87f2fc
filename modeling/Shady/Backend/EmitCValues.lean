import Shady.Backend.EmitCTerms

/-!
# Emission of values

Emitting a value registers it and what it is made of, and adds bindings to the printers of
the abstractions these are placed in. Wherever a printer has got to, running what was
added to it makes the new variables hold the values they stand for.
-/

set_option autoImplicit false

namespace Shady.Backend

open Imperative

section Settling
variable {Op Fn Word Mem : Type}

/-- A value that is no parameter and no instruction. -/
def Value.Floating : Value Op → Prop
  | .literal _ => True
  | .primOp _ _ => True
  | .inlined _ _ => True
  | _ => False

def Registered (fn fn' : FnEmitter Op Fn) (v : Value Op) (term : Expr Op) : Prop :=
  fn.emittedTerms v = none ∧ fn'.emittedTerms v = some term

/-- No variable has changed but those of the values that were registered and belong here. -/
def OnlyRegistered (fn fn' : FnEmitter Op Fn) (abs : Abs) (vars vars' : Vars Word) : Prop :=
  ∀ x, (∀ v, Registered fn fn' v (.var x) → v.home ≠ abs) → vars' x = vars x

variable [DecidableEq Word] (m : Machine Op (Effect Fn) Word Mem) (fuel : Nat)

/-- The text computes all values of the abstraction that were registered. -/
def Settles (abs : Abs) (fn fn' : FnEmitter Op Fn) (text : List (CStmt Op Fn)) : Prop :=
  ∀ (env : Env Word) (held : Abs → Nat → Bool) (vars : Vars Word)
      (world : World (Effect Fn) Label Word Mem),
    Right m fn'.emittedTerms env held (properlyAround abs) vars →
    Right m fn.emittedTerms env held (· = abs) vars →
    (∀ v term, Registered fn fn' v term → v.home = abs →
      v.computable m held env world.mem = true) →
    ∃ vars', (Stmt.block text).exec m fuel ⟨vars, world⟩ = some (.normal, ⟨vars', world⟩) ∧
      Right m fn'.emittedTerms env held (· = abs) vars' ∧ OnlyRegistered fn fn' abs vars vars'

/-- What was added to a printer settles what was registered. -/
def Hoists (abs : Abs) (fn fn' : FnEmitter Op Fn) : Prop :=
  ∀ printed, fn.instructionPrinters abs = some printed →
    ∃ text, fn'.instructionPrinters abs = some (printed ++ text) ∧ Settles m fuel abs fn fn' text

/-- An emission at a place, that prints freely inside some abstractions and hoists to the
    others; outside of these it registers nothing but floating values it was asked for. -/
structure Emits (here : Abs) (inside : Abs → Prop) (vs : List (Value Op))
    (fn fn' : FnEmitter Op Fn) : Prop where
  grows : Extends fn.emittedTerms fn'.emittedTerms
  later : fn.uniqueName ≤ fn'.uniqueName
  fresh : ∀ v term, Registered fn fn' v term →
    inside v.home ∨ (v ∈ subtermsOf vs ∧ v.Floating ∧ v.home <:+ here)
  names : ∀ v x, Registered fn fn' v (.var x) → fn.uniqueName ≤ x
  wf : fn'.Wf
  hoists : ∀ abs, ¬ inside abs → Hoists m fuel abs fn fn'

variable {m fuel} {fn fn' fn'' : FnEmitter Op Fn} {abs here : Abs}

omit [DecidableEq Word] in
theorem Registered.split {v : Value Op} {term : Expr Op} (grows : Extends fn'.emittedTerms fn''.emittedTerms)
    (registered : Registered fn fn'' v term) :
    Registered fn fn' v term ∨ Registered fn' fn'' v term := by
  cases found : fn'.emittedTerms v with
  | none => exact .inr ⟨found, registered.2⟩
  | some term' =>
      have same := grows v term' found
      rw [registered.2] at same
      cases same
      exact .inl ⟨registered.1, found⟩

omit [DecidableEq Word] in
theorem Registered.later {v : Value Op} {term : Expr Op} (grows : Extends fn.emittedTerms fn'.emittedTerms)
    (registered : Registered fn' fn'' v term) : Registered fn fn'' v term :=
  ⟨grows.none registered.1, registered.2⟩

omit [DecidableEq Word] in
theorem Registered.earlier {v : Value Op} {term : Expr Op}
    (grows : Extends fn'.emittedTerms fn''.emittedTerms) (registered : Registered fn fn' v term) :
    Registered fn fn'' v term :=
  ⟨registered.1, grows v term registered.2⟩

omit [DecidableEq Word] in
/-- Variables of other homes are not touched. -/
theorem Right.after {env : Env Word} {held : Abs → Nat → Bool} {homes : Abs → Prop}
    {vars vars' : Vars Word} (right : Right m fn''.emittedTerms env held homes vars) (wf : fn''.Wf)
    (grows : Extends fn'.emittedTerms fn''.emittedTerms) (elsewhere : ¬ homes abs)
    (only : OnlyRegistered fn fn' abs vars vars') : Right m fn''.emittedTerms env held homes vars' := by
  intro v x bound home holds
  obtain ⟨word, value, stored⟩ := right v x bound home holds
  refine ⟨word, value, ?_⟩
  rw [only x ?_]
  · exact stored
  · intro u registered here
    have same := wf.distinct u v x (grows u _ registered.2) bound
    rw [← same, here] at home
    exact elsewhere home

omit [DecidableEq Word] in
theorem not_properlyAround_self : ¬ properlyAround abs abs := fun proper => proper.2 rfl

theorem Settles.trans {first second : List (CStmt Op Fn)}
    (grows : Extends fn.emittedTerms fn'.emittedTerms)
    (grows' : Extends fn'.emittedTerms fn''.emittedTerms) (wf : fn''.Wf)
    (before : Settles m fuel abs fn fn' first) (after : Settles m fuel abs fn' fn'' second) :
    Settles m fuel abs fn fn'' (first ++ second) := by
  intro env held vars world outer own computable
  obtain ⟨vars', ranFirst, own', only⟩ := before env held vars world
    (outer.mono grows' (fun _ _ h => h) (fun _ h => h)) own
    (fun v term registered => computable v term (registered.earlier grows'))
  have outer' := outer.after wf grows' not_properlyAround_self only
  obtain ⟨vars'', ranSecond, own'', only'⟩ := after env held vars' world outer' own'
    (fun v term registered => computable v term (registered.later grows))
  refine ⟨vars'', ?_, own'', ?_⟩
  · rw [exec_append_normal m fuel ranFirst]
    exact ranSecond
  · intro x unnamed
    rw [only' x fun v registered => unnamed v (registered.later grows),
      only x fun v registered => unnamed v (registered.earlier grows')]

theorem Hoists.trans (grows : Extends fn.emittedTerms fn'.emittedTerms)
    (grows' : Extends fn'.emittedTerms fn''.emittedTerms) (wf : fn''.Wf)
    (before : Hoists m fuel abs fn fn') (after : Hoists m fuel abs fn' fn'') :
    Hoists m fuel abs fn fn'' := by
  intro printed isOpen
  obtain ⟨first, isOpen', settles⟩ := before printed isOpen
  obtain ⟨second, isOpen'', settles'⟩ := after (printed ++ first) isOpen'
  exact ⟨first ++ second, by rw [isOpen'', List.append_assoc], settles.trans grows grows' wf settles'⟩

/-- Nothing was printed, and no variable registered that belongs here. -/
theorem Hoists.quiet (grows : Extends fn.emittedTerms fn'.emittedTerms)
    (same : fn'.instructionPrinters abs = fn.instructionPrinters abs)
    (unbound : ∀ v x, Registered fn fn' v (.var x) → v.home ≠ abs) : Hoists m fuel abs fn fn' := by
  intro printed isOpen
  refine ⟨[], by rw [same, isOpen, List.append_nil], ?_⟩
  intro env held vars world outer own computable
  refine ⟨vars, rfl, ?_, fun x _ => rfl⟩
  intro v x bound home holds
  cases found : fn.emittedTerms v with
  | none => exact absurd home (unbound v x ⟨found, bound⟩)
  | some term =>
      have same := grows v term found
      rw [bound] at same
      cases same
      exact own v x found home holds

omit [DecidableEq Word] in
theorem not_registered_self {v : Value Op} {term : Expr Op} : ¬ Registered fn fn v term := by
  rintro ⟨missing, found⟩
  rw [missing] at found
  cases found

theorem Emits.refl (inside : Abs → Prop) (vs : List (Value Op)) (wf : fn.Wf) :
    Emits m fuel here inside vs fn fn where
  grows _ _ found := found
  later := le_refl _
  fresh _ _ registered := absurd registered not_registered_self
  names _ _ registered := absurd registered not_registered_self
  wf := wf
  hoists _ _ :=
    Hoists.quiet (fun _ _ found => found) rfl fun _ _ registered => absurd registered not_registered_self

theorem Emits.trans {inside : Abs → Prop} {vs ws : List (Value Op)}
    (before : Emits m fuel here inside vs fn fn') (after : Emits m fuel here inside ws fn' fn'') :
    Emits m fuel here inside (vs ++ ws) fn fn'' where
  grows := before.grows.trans after.grows
  later := before.later.trans after.later
  fresh v term registered := by
    rw [subtermsOf_append, List.mem_append]
    cases registered.split after.grows with
    | inl first => exact (before.fresh v term first).imp id fun listed => ⟨.inl listed.1, listed.2⟩
    | inr second => exact (after.fresh v term second).imp id fun listed => ⟨.inr listed.1, listed.2⟩
  names v x registered := by
    cases registered.split after.grows with
    | inl first => exact before.names v x first
    | inr second => exact before.later.trans (after.names v x second)
  wf := after.wf
  hoists abs outside :=
    (before.hoists abs outside).trans before.grows after.grows after.wf (after.hoists abs outside)

theorem Emits.mono {inside : Abs → Prop} {vs : List (Value Op)}
    (emits : Emits m fuel here inside vs fn fn') (inside' : Abs → Prop) (ws : List (Value Op))
    (wider : ∀ abs, inside abs → inside' abs)
    (included : subtermsOf vs ⊆ subtermsOf ws) : Emits m fuel here inside' ws fn fn' where
  grows := emits.grows
  later := emits.later
  fresh v term registered :=
    (emits.fresh v term registered).imp (wider _) fun listed => ⟨included listed.1, listed.2⟩
  names := emits.names
  wf := emits.wf
  hoists abs outside := emits.hoists abs fun isInside => outside (wider abs isInside)

/-! ## Unused names -/

/-- A name that was made but stands for no value yet. -/
def FnEmitter.Unused (fn : FnEmitter Op Fn) (x : Nat) : Prop :=
  x < fn.uniqueName ∧ ∀ v, fn.emittedTerms v ≠ some (.var x)

theorem Emits.unused {inside : Abs → Prop} {vs : List (Value Op)} {x : Nat}
    (emits : Emits m fuel here inside vs fn fn') (unused : fn.Unused x) : fn'.Unused x := by
  refine ⟨unused.1.trans_le emits.later, ?_⟩
  intro v bound
  cases found : fn.emittedTerms v with
  | none =>
      have recent := emits.names v x ⟨found, bound⟩
      have old := unused.1
      omega
  | some term =>
      have same := emits.grows v term found
      rw [bound] at same
      cases same
      exact unused.2 v found

/-- What is not among the emitted values stays unregistered. -/
theorem Emits.still_missing {vs : List (Value Op)} {v : Value Op}
    (emits : Emits m fuel abs (fun _ => False) vs fn fn') (missing : fn.emittedTerms v = none)
    (unlisted : v ∉ subtermsOf vs) : fn'.emittedTerms v = none := by
  cases found : fn'.emittedTerms v with
  | none => rfl
  | some term => exact absurd ((emits.fresh v term ⟨missing, found⟩).resolve_left id).1 unlisted

/-- Parameters and instructions are not registered by asking for values. -/
theorem Emits.fixed_missing {vs : List (Value Op)} {v : Value Op}
    (emits : Emits m fuel abs (fun _ => False) vs fn fn') (missing : fn.emittedTerms v = none)
    (fixed : ¬ v.Floating) : fn'.emittedTerms v = none := by
  cases found : fn'.emittedTerms v with
  | none => rfl
  | some term => exact absurd ((emits.fresh v term ⟨missing, found⟩).resolve_left id).2.1 fixed

variable [DecidableEq Op]

omit [DecidableEq Word] in
theorem extends_update {terms : Value Op → Option (Expr Op)} {v : Value Op} {term : Expr Op}
    (missing : terms v = none) : Extends terms (Function.update terms v (some term)) := by
  intro u term' found
  by_cases same : u = v
  · rw [same, missing] at found
    cases found
  · rw [Function.update_of_ne same]
    exact found

omit [DecidableEq Word] in
theorem registered_update {v u : Value Op} {term term' : Expr Op}
    (terms : fn'.emittedTerms = Function.update fn.emittedTerms v (some term))
    (registered : Registered fn fn' u term') : u = v ∧ term' = term := by
  by_cases same : u = v
  · refine ⟨same, ?_⟩
    have found := registered.2
    rw [terms, same, Function.update_self] at found
    exact (Option.some.inj found).symm
  · have found := registered.2
    rw [terms, Function.update_of_ne same, registered.1] at found
    cases found

omit [DecidableEq Word] in
theorem FnEmitter.Wf.update {v : Value Op} {term : Expr Op} (wf : fn.Wf)
    (terms : fn'.emittedTerms = Function.update fn.emittedTerms v (some term))
    (missing : fn.emittedTerms v = none) (shaped : v.Shaped fn.emittedTerms term)
    (placed : v.Within v.home) (later : fn.uniqueName ≤ fn'.uniqueName)
    (bound : ∀ x, term = .var x → x < fn'.uniqueName ∧ ∀ u, fn.emittedTerms u ≠ some (.var x)) :
    fn'.Wf := by
  have grows : Extends fn.emittedTerms fn'.emittedTerms := terms ▸ extends_update missing
  have cases_of : ∀ u term', fn'.emittedTerms u = some term' →
      (u = v ∧ term' = term) ∨ fn.emittedTerms u = some term' := by
    intro u term' found
    cases before : fn.emittedTerms u with
    | none => exact .inl (registered_update terms ⟨before, found⟩)
    | some old =>
        have same := grows u old before
        rw [found] at same
        exact .inr same.symm
  constructor
  case shaped =>
    intro u term' found
    cases cases_of u term' found with
    | inl new => rw [new.1, new.2]; exact shaped.mono grows
    | inr old => exact (wf.shaped u term' old).mono grows
  case named =>
    intro u x found
    cases cases_of u _ found with
    | inl new => exact (bound x new.2.symm).1
    | inr old => exact (wf.named u x old).trans_le later
  case distinct =>
    intro u w x first second
    cases cases_of u _ first with
    | inl new =>
        cases cases_of w _ second with
        | inl new' => rw [new.1, new'.1]
        | inr old' => exact absurd old' ((bound x new.2.symm).2 w)
    | inr old =>
        cases cases_of w _ second with
        | inl new' => exact absurd old ((bound x new'.2.symm).2 u)
        | inr old' => exact wf.distinct u w x old old'
  case placed =>
    intro u term' found
    cases cases_of u term' found with
    | inl new => rw [new.1]; exact placed
    | inr old => exact wf.placed u term' old

/-- One more value is registered. -/
theorem Emits.register {inside : Abs → Prop} {vs : List (Value Op)} {v : Value Op} {term : Expr Op}
    (before : Emits m fuel here inside vs fn fn')
    (terms : fn''.emittedTerms = Function.update fn'.emittedTerms v (some term))
    (missing : fn'.emittedTerms v = none) (shaped : v.Shaped fn'.emittedTerms term)
    (placed : v.Within v.home) (later : fn'.uniqueName ≤ fn''.uniqueName)
    (bound : ∀ x, term = .var x →
      fn.uniqueName ≤ x ∧ x < fn''.uniqueName ∧ ∀ u, fn'.emittedTerms u ≠ some (.var x))
    (listed : inside v.home ∨ (v ∈ subtermsOf vs ∧ v.Floating ∧ v.home <:+ here))
    (hoists : ∀ abs, ¬ inside abs → Hoists m fuel abs fn' fn'') : Emits m fuel here inside vs fn fn'' := by
  have grows : Extends fn'.emittedTerms fn''.emittedTerms := terms ▸ extends_update missing
  have wf : fn''.Wf := before.wf.update terms missing shaped placed later fun x named => (bound x named).2
  constructor
  case grows => exact before.grows.trans grows
  case later => exact before.later.trans later
  case wf => exact wf
  case hoists =>
    exact fun abs outside => (before.hoists abs outside).trans before.grows grows wf (hoists abs outside)
  case fresh =>
    intro u term' registered
    cases registered.split grows with
    | inl first => exact before.fresh u term' first
    | inr second =>
        rw [(registered_update terms second).1]
        exact listed
  case names =>
    intro u x registered
    cases registered.split grows with
    | inl first => exact before.names u x first
    | inr second => exact (bound x (registered_update terms second).2.symm).1

/-- A value that is bound to no variable is registered without a word printed. -/
theorem Hoists.of_unbound {v : Value Op} {term : Expr Op}
    (terms : fn'.emittedTerms = Function.update fn.emittedTerms v (some term))
    (missing : fn.emittedTerms v = none)
    (same : fn'.instructionPrinters abs = fn.instructionPrinters abs)
    (unbound : v.home = abs → ∀ x, term ≠ .var x) : Hoists m fuel abs fn fn' := by
  refine Hoists.quiet (terms ▸ extends_update missing) same ?_
  intro u x registered here
  obtain ⟨same, spelled⟩ := registered_update terms registered
  exact unbound (same ▸ here) x spelled.symm

/-! ## Values -/

/-- The declaration of a primop's variable settles the primop. -/
theorem hoists_bind (m : Machine Op (Effect Fn) Word Mem) (fuel : Nat) {op : Op} {operands : Operands Op} {texts : Exprs Op} {term : Expr Op}
    (wf : fn.Wf) (missing : fn.emittedTerms (.primOp op operands) = none)
    (spelled : operands.texts fn.emittedTerms = some texts)
    (placed : (Value.primOp op operands).Within (Value.primOp op operands).home)
    (emitted : fn.bindIntermediaryResult (Value.primOp op operands).home (.primOp op operands)
      (.apply op texts) = some (term, fn')) :
    term = .var fn.uniqueName ∧ fn'.uniqueName = fn.uniqueName + 1 ∧
      fn'.emittedTerms
        = Function.update fn.emittedTerms (.primOp op operands) (some (.var fn.uniqueName)) ∧
      ∀ abs, Hoists m fuel abs fn fn' := by
  simp only [FnEmitter.bindIntermediaryResult, FnEmitter.makeUniqueName, FnEmitter.print,
    Option.map_eq_some_iff, Prod.mk.injEq] at emitted
  obtain ⟨-, ⟨printed, isOpen, rfl⟩, rfl, rfl⟩ := emitted
  refine ⟨rfl, rfl, rfl, ?_⟩
  intro abs
  by_cases here : (Value.primOp op operands).home = abs
  case neg =>
    refine Hoists.of_unbound (v := .primOp op operands) rfl missing ?_ fun home => absurd home here
    exact Function.update_of_ne (Ne.symm here) _ _
  case pos =>
    intro printed' isOpen'
    rw [here] at isOpen
    rw [isOpen] at isOpen'
    cases isOpen'
    refine ⟨[.declare fn.uniqueName (some (.apply op texts))], ?_, ?_⟩
    · rw [← here]
      exact Function.update_self _ _ _
    intro env held vars world outer own computable
    have grows : Extends fn.emittedTerms
        (Function.update fn.emittedTerms (.primOp op operands) (some (.var fn.uniqueName))) :=
      extends_update missing
    have steady : operands.steady m held env world.mem = true :=
      computable (.primOp op operands) _ ⟨missing, Function.update_self _ _ _⟩ here
    have right := (outer.mono grows (fun _ _ h => h) (fun _ h => h)).around own
    obtain ⟨words, values, reads⟩ :=
      Operands.texts_eval wf right operands texts spelled (here ▸ placed) steady
    refine ⟨Function.update vars fn.uniqueName (some (some (m.operate op words))), ?_, ?_, ?_⟩
    · rw [exec_singleton, Stmt.exec, Expr.eval, reads]
      rfl
    · intro v x bound home holds
      by_cases same : v = .primOp op operands
      · rw [same] at bound ⊢
        cases (Function.update_self (Value.primOp op operands) _ fn.emittedTerms).symm.trans bound
        exact ⟨m.operate op words, by rw [Value.eval, values]; rfl, Function.update_self _ _ _⟩
      · have old : fn.emittedTerms v = some (.var x) :=
          (Function.update_of_ne same _ _).symm.trans bound
        obtain ⟨word, value, stored⟩ := own v x old home holds
        refine ⟨word, value, ?_⟩
        rw [Function.update_of_ne (wf.named v x old).ne]
        exact stored
    · intro x unnamed
      have other : x ≠ fn.uniqueName := by
        rintro rfl
        exact unnamed (.primOp op operands) ⟨missing, Function.update_self _ _ _⟩ here
      exact Function.update_of_ne other _ _

omit [DecidableEq Word] [DecidableEq Op] in
theorem foundOr_eq_some {v : Value Op} {emit : Option (Expr Op × FnEmitter Op Fn)} {term : Expr Op} :
    fn.foundOr v emit = some (term, fn') ↔
      (fn.emittedTerms v = some term ∧ fn' = fn) ∨
        (fn.emittedTerms v = none ∧ emit = some (term, fn')) := by
  rw [FnEmitter.foundOr]
  cases fn.emittedTerms v with
  | none => simp
  | some found => simp [eq_comm]

omit [DecidableEq Op] in
theorem emits_found {v : Value Op} {term : Expr Op} (wf : fn.Wf)
    (found : fn.emittedTerms v = some term ∧ fn' = fn) :
    Emits m fuel abs (fun _ => False) [v] fn fn' ∧ fn'.emittedTerms v = some term := by
  rw [found.2]
  exact ⟨Emits.refl _ _ wf, found.1⟩

variable (m fuel) in
mutual
theorem emitValue_emits : ∀ (v : Value Op) {fn fn' : FnEmitter Op Fn} {term : Expr Op}, fn.Wf →
    v.Within abs → emitValue v fn = some (term, fn') →
    Emits m fuel abs (fun _ => False) [v] fn fn' ∧ fn'.emittedTerms v = some term
  | .param place i, fn, fn', term, wf, within, emitted => by
      cases foundOr_eq_some.mp emitted with
      | inl found => exact emits_found wf found
      | inr missing => cases missing.2
  | .load place k ptr, fn, fn', term, wf, within, emitted => by
      cases foundOr_eq_some.mp emitted with
      | inl found => exact emits_found wf found
      | inr missing => cases missing.2
  | .result place k, fn, fn', term, wf, within, emitted => by
      cases foundOr_eq_some.mp emitted with
      | inl found => exact emits_found wf found
      | inr missing => cases missing.2
  | .literal n, fn, fn', term, wf, within, emitted => by
      cases foundOr_eq_some.mp emitted with
      | inl found => exact emits_found wf found
      | inr missing =>
          obtain ⟨missing, emitted⟩ := missing
          cases emitted
          refine ⟨?_, Function.update_self _ _ _⟩
          have start : Emits m fuel abs (fun _ => False) [Value.literal n] fn fn := Emits.refl _ _ wf
          refine start.register rfl missing rfl within.at_home (le_refl _) (fun x equal => nomatch equal)
            (.inr ⟨by simp [subtermsOf, Value.subterms], trivial, within.home⟩) ?_
          exact fun abs _ => Hoists.of_unbound rfl missing rfl fun _ x equal => nomatch equal
  | .primOp op operands, fn, fn', term, wf, within, emitted => by
      cases foundOr_eq_some.mp emitted with
      | inl found => exact emits_found wf found
      | inr missing =>
          obtain ⟨missing, emitted⟩ := missing
          rw [Option.bind_eq_some_iff] at emitted
          obtain ⟨⟨texts, next⟩, ofOperands, bound⟩ := emitted
          obtain ⟨emits, spelled⟩ := emitOperands_emits operands wf within ofOperands
          have missing' := emits.still_missing missing (by
            rw [← Operands.subterms_eq]
            exact primOp_not_below op operands)
          obtain ⟨rfl, named, terms, hoists⟩ :=
            hoists_bind m fuel emits.wf missing' spelled within.at_home bound
          refine ⟨?_, by rw [terms, Function.update_self]⟩
          have before := emits.mono (fun _ => False) [.primOp op operands] (fun _ h => h)
            (by rw [subtermsOf_singleton, Value.subterms, ← Operands.subterms_eq]; exact List.subset_cons_self _ _)
          refine before.register terms missing' ⟨⟨texts, spelled⟩, _, rfl⟩ within.at_home
            (by omega) ?_ (.inr ⟨by rw [subtermsOf_singleton]; exact Value.self_mem_subterms _, trivial, within.home⟩)
            fun abs _ => hoists abs
          intro x equal
          cases equal
          refine ⟨emits.later, by omega, ?_⟩
          exact fun u found => absurd (emits.wf.named u _ found) (lt_irrefl _)
  | .inlined op operands, fn, fn', term, wf, within, emitted => by
      cases foundOr_eq_some.mp emitted with
      | inl found => exact emits_found wf found
      | inr missing =>
          obtain ⟨missing, emitted⟩ := missing
          rw [Option.map_eq_some_iff] at emitted
          obtain ⟨⟨texts, next⟩, ofOperands, equal⟩ := emitted
          cases equal
          obtain ⟨emits, spelled⟩ := emitOperands_emits operands wf within ofOperands
          have missing' := emits.still_missing missing (by
            rw [← Operands.subterms_eq]
            exact inlined_not_below op operands)
          refine ⟨?_, Function.update_self _ _ _⟩
          have before := emits.mono (fun _ => False) [.inlined op operands] (fun _ h => h)
            (by rw [subtermsOf_singleton, Value.subterms, ← Operands.subterms_eq]; exact List.subset_cons_self _ _)
          refine before.register rfl missing' ⟨texts, spelled, rfl⟩ within.at_home (le_refl _)
            (fun x equal => nomatch equal)
            (.inr ⟨by rw [subtermsOf_singleton]; exact Value.self_mem_subterms _, trivial, within.home⟩) ?_
          exact fun abs _ => Hoists.of_unbound rfl missing' rfl fun _ x equal => nomatch equal
theorem emitOperands_emits : ∀ (vs : Operands Op) {fn fn' : FnEmitter Op Fn} {texts : Exprs Op}, fn.Wf →
    (∀ place ∈ vs.places, place <:+ abs) → emitOperands vs fn = some (texts, fn') →
    Emits m fuel abs (fun _ => False) vs.toList fn fn' ∧ vs.texts fn'.emittedTerms = some texts
  | .nil, fn, fn', texts, wf, within, emitted => by
      cases emitted
      exact ⟨Emits.refl _ _ wf, rfl⟩
  | .cons head tail, fn, fn', texts, wf, within, emitted => by
      simp only [emitOperands, Option.bind_eq_some_iff, Option.map_eq_some_iff] at emitted
      obtain ⟨⟨text, next⟩, ofHead, ⟨rest, last⟩, ofTail, equal⟩ := emitted
      cases equal
      obtain ⟨emitsHead, foundHead⟩ := emitValue_emits head wf
        (fun p member => within p (by simp [Operands.places, member])) ofHead
      obtain ⟨emitsTail, foundTail⟩ := emitOperands_emits tail emitsHead.wf
        (fun p member => within p (by simp [Operands.places, member])) ofTail
      refine ⟨emitsHead.trans emitsTail, ?_⟩
      rw [Operands.texts, emitsTail.grows _ _ foundHead, foundTail]
      rfl
end

end Settling

end Shady.Backend
