import Shady.Backend.EmitCChains

/-!
# Declarations and transfers

The variables a construct is entered and left through: how they are declared, registered
as parameters, and assigned by a merge.
-/

set_option autoImplicit false

namespace Shady.Backend

open Imperative

section Transfers
variable {Op Fn Word Mem : Type} [DecidableEq Op] [DecidableEq Word]
variable {m : Machine Op (Effect Fn) Word Mem} {fuel : Nat}
variable {fn fn' fn'' : FnEmitter Op Fn} {abs here : Abs}

/-- The variables hold the words, one for one. -/
def Holds (vars : Vars Word) (xs : List Nat) (words : List Word) : Prop :=
  xs.map vars = words.map fun word => some (some word)

variable (m fuel) in
/-- The text of a value that is emitted now means the value, once what was hoisted ran. -/
theorem emitValue_runs {v : Value Op} {term : Expr Op} (wf : fn.Wf) (within : v.Within abs)
    (emitted : emitValue v fn = some (term, fn')) :
    Prints abs fn fn' fun text =>
      ∀ (env : Env Word) (held : Abs → Nat → Bool) (vars : Vars Word)
          (world : World (Effect Fn) Label Word Mem) (earlier now direct : List (Value Op)),
        Right m fn'.emittedTerms env held (properlyAround abs) vars →
        Right m fn.emittedTerms env held (· = abs) vars →
        steadyAt m held env world.mem abs earlier now direct = true → v ∈ now → v ∈ direct →
        (∀ u ∈ subtermsOf earlier, fn.emittedTerms u ≠ none) →
        ∃ vars' word, (Stmt.block text).exec m fuel ⟨vars, world⟩ = some (.normal, ⟨vars', world⟩) ∧
          Right m fn'.emittedTerms env held (properlyAround abs) vars' ∧
          Right m fn'.emittedTerms env held (· = abs) vars' ∧ OnlyRegistered fn fn' abs vars vars' ∧
          v.eval m env = some word ∧ term.eval m vars' world.mem = some word := by
  obtain ⟨emits, found⟩ := emitValue_emits m fuel v wf within emitted
  intro printed isOpen
  obtain ⟨text, isOpen', settles⟩ := emits.hoists abs id printed isOpen
  refine ⟨text, isOpen', ?_⟩
  intro env held vars world earlier now direct outer own steady needed used known
  obtain ⟨vars', ran, own', only⟩ := settles env held vars world outer own
    fun u term registered home => emits.computable id steady
      (fun w member => List.mem_singleton.mp member ▸ needed) known registered home
  have outer' := outer.after emits.wf (fun _ _ found => found) not_properlyAround_self only
  obtain ⟨word, value, reads⟩ :=
    Value.text_eval emits.wf (outer'.around own') v term found within (steady_of_mem steady used)
  exact ⟨vars', word, ran, outer', own', only, value, reads⟩

/-- What a merge may assume of the variables it assigns to: each is the name of no value that
    is still held afterwards, unless that value is the word assigned. -/
def Assignable (m : Machine Op (Effect Fn) Word Mem) (terms : Value Op → Option (Expr Op))
    (env : Env Word) (held : Nat → Abs → Nat → Bool) (i : Nat) (xs : List Nat) (words : List Word) :
    Prop :=
  ∀ n x word, xs[n]? = some x → words[n]? = some word → ∀ v, terms v = some (.var x) →
    v.heldBy (held (i + n + 1)) = true → v.eval m env = some word

variable (m fuel) in
/-- After the assignments each variable holds the word of its argument. -/
theorem emitTransfer_runs : ∀ (args : Operands Op) {xs : List Nat} {fn fn' : FnEmitter Op Fn}, fn.Wf →
    (∀ place ∈ args.places, place <:+ abs) → (∀ x ∈ xs, x < fn.uniqueName) →
    emitTransfer abs xs args fn = some fn' →
    Emits m fuel abs (fun place => abs <:+ place) args.toList fn fn' ∧
      (∀ v term, Registered fn fn' v term → v.Floating) ∧
      Prints abs fn fn' fun text =>
        ∀ (env : Env Word) (held : Nat → Abs → Nat → Bool) (i : Nat) (vars : Vars Word)
            (world : World (Effect Fn) Label Word Mem) (earlier : List (Value Op)) (words : List Word),
          (∀ j place n, held (j + 1) place n = true → held j place n = true) →
          Right m fn'.emittedTerms env (held i) (properlyAround abs) vars →
          Right m fn.emittedTerms env (held i) (· = abs) vars →
          xs.Nodup → (∀ x ∈ xs, (vars x).isSome = true) →
          Assignable m fn'.emittedTerms env held i xs words →
          (∀ u ∈ subtermsOf earlier, fn.emittedTerms u ≠ none) →
          args.eval m env = some words →
          steadyTransfer m held env world.mem abs earlier i args.toList = true →
          ∃ vars', (Stmt.block text).exec m fuel ⟨vars, world⟩ = some (.normal, ⟨vars', world⟩) ∧
            Holds vars' xs words ∧
            ∀ x, x ∉ xs → (∀ v, Registered fn fn' v (.var x) → v.home ≠ abs) → vars' x = vars x
  | .nil, [], fn, fn', wf, within, old, emitted => by
      cases emitted
      refine ⟨Emits.refl _ _ wf, fun v term registered => absurd registered not_registered_self, ?_⟩
      intro printed isOpen
      refine ⟨[], by rw [isOpen, List.append_nil], ?_⟩
      intro env held i vars world earlier words shrinks outer own nodup declared assignable known values
        steady
      cases values
      exact ⟨vars, rfl, rfl, fun _ _ _ => rfl⟩
  | .nil, _ :: _, _, _, _, _, _, emitted => by cases emitted
  | .cons _ _, [], _, _, _, _, _, emitted => by cases emitted
  | .cons head tail, x :: xs, fn, fn', wf, within, old, emitted => by
      simp only [emitTransfer, Option.bind_eq_some_iff] at emitted
      obtain ⟨⟨term, next⟩, ofHead, printed, wasPrinted, ofTail⟩ := emitted
      have headWithin : head.Within abs := fun place member =>
        within place (by simp [Operands.places, member])
      obtain ⟨emits, found⟩ := emitValue_emits m fuel head wf headWithin ofHead
      have runs := emitValue_runs m fuel wf headWithin ofHead
      obtain ⟨terms, names, -, prints⟩ := print_eq_some wasPrinted
      have emitsPrinted := (emits.mono (fun place => abs <:+ place) _ (fun _ h => h.elim)
        (List.Subset.refl _)).print (List.suffix_refl abs) wasPrinted
      have old' : ∀ y ∈ xs, y < printed.uniqueName := by
        intro y member
        have before := old y (List.mem_cons_of_mem x member)
        exact names ▸ before.trans_le emits.later
      obtain ⟨emitsTail, floats, printsTail⟩ := emitTransfer_runs tail emitsPrinted.wf
        (fun place member => within place (by simp [Operands.places, member])) old' ofTail
      refine ⟨emitsPrinted.trans emitsTail, ?_, ?_⟩
      · intro v term' registered
        cases registered.split emitsTail.grows with
        | inl first =>
            rw [Registered, terms] at first
            exact ((emits.fresh v term' first).resolve_left id).2.1
        | inr second => exact floats v term' second
      · refine ((runs.trans prints).trans printsTail).mono ?_
        rintro text ⟨-, third, rfl, ⟨first, second, rfl, does, rfl⟩, doesTail⟩
        intro env held i vars world earlier words shrinks outer own nodup declared assignable known values
          steady
        rw [Operands.toList, steadyTransfer, Bool.and_eq_true] at steady
        simp only [Operands.eval, Option.bind_eq_some_iff, Option.map_eq_some_iff] at values
        obtain ⟨word, value, rest, valuesTail, rfl⟩ := values
        have outerNext : Right m next.emittedTerms env (held i) (properlyAround abs) vars :=
          outer.mono (terms ▸ emitsTail.grows) (fun _ _ h => h) (fun _ h => h)
        obtain ⟨vars', word', ran, -, own', only, value', reads⟩ := does env (held i) vars world
          earlier [head] [head] outerNext own steady.1 (List.mem_singleton_self head)
          (List.mem_singleton_self head) known
        cases value.symm.trans value'
        have outer' : Right m fn'.emittedTerms env (held i) (properlyAround abs) vars' :=
          outer.after emitsTail.wf (terms ▸ emitsTail.grows) not_properlyAround_self only
        have kept : ∀ y, y < fn.uniqueName → vars' y = vars y := by
          intro y isOld
          refine only y fun v registered => absurd (emits.names v y registered) ?_
          omega
        have oldHead : x < fn.uniqueName := old x List.mem_cons_self
        -- the variable just assigned is right for what is still held, the others as before
        have assigned : ∀ {homes : Abs → Prop} {before : Value Op → Option (Expr Op)},
            Extends before fn'.emittedTerms → Right m before env (held i) homes vars' →
            Right m before env (held (i + 1)) homes (Function.update vars' x (some (some word))) := by
          intro homes before grows right v y bound home holds
          by_cases same : y = x
          · rw [same] at bound ⊢
            have meant := assignable 0 x word rfl rfl v (grows v _ bound) holds
            exact ⟨word, meant, Function.update_self _ _ _⟩
          · rw [Function.update_of_ne same]
            exact (right.mono (fun _ _ found => found) (shrinks i) (fun _ h => h)) v y bound home holds
        have known' := known_append [head] emitsPrinted.wf emitsPrinted.grows known (by
          intro v member
          rw [List.mem_singleton.mp member, terms, found]
          exact Option.some_ne_none term)
        have declared' : ∀ y ∈ xs,
            (Function.update vars' x (some (some word)) y).isSome = true := by
          intro y member
          have apart : y ≠ x := fun same => (List.nodup_cons.mp nodup).1 (same ▸ member)
          rw [Function.update_of_ne apart, kept y (old y (List.mem_cons_of_mem x member))]
          exact declared y (List.mem_cons_of_mem x member)
        have assignable' : Assignable m fn'.emittedTerms env held (i + 1) xs rest := by
          intro n y word' atName atWord v bound holds
          refine assignable (n + 1) y word' atName atWord v bound ?_
          have shift : i + (n + 1) + 1 = i + 1 + n + 1 := by omega
          rw [shift]
          exact holds
        obtain ⟨vars'', ranTail, holds, others⟩ := doesTail env held (i + 1)
          (Function.update vars' x (some (some word))) world (earlier ++ [head]) rest shrinks
          (assigned (fun _ _ found => found) outer')
          (assigned emitsTail.grows (terms.symm ▸ own')) (List.nodup_cons.mp nodup).2 declared' assignable' known'
          valuesTail steady.2
        refine ⟨vars'', ?_, ?_, ?_⟩
        · rw [List.append_assoc, exec_append_normal m fuel ran, List.singleton_append]
          change andThen (Stmt.exec m fuel (.assign x term) ⟨vars', world⟩) _ = _
          rw [Stmt.exec]
          have isDeclared : (vars' x).isSome = true := by
            rw [kept x oldHead]
            exact declared x List.mem_cons_self
          rw [if_pos isDeclared, reads]
          exact ranTail
        · rw [Holds, List.map_cons, List.map_cons, holds, others x (List.nodup_cons.mp nodup).1 ?_,
            Function.update_self]
          intro v registered home
          have recent := emitsTail.names v x registered
          have before := names ▸ emits.later
          omega
        · intro y other unnamed
          have apart : y ≠ x ∧ y ∉ xs := by simpa using other
          rw [others y apart.2 fun v registered => unnamed v (registered.later emitsPrinted.grows),
            Function.update_of_ne apart.1]
          refine only y fun v registered => unnamed v ⟨registered.1, ?_⟩
          exact emitsTail.grows v _ (terms ▸ registered.2)

/-! ## Declarations -/

omit [DecidableEq Op] [DecidableEq Word] in
theorem declarePhis_names : ∀ (count : Nat) {fn fn' : FnEmitter Op Fn} {xs : List Nat},
    declarePhis abs count fn = some (xs, fn') →
    fn'.emittedTerms = fn.emittedTerms ∧ fn.uniqueName ≤ fn'.uniqueName ∧
      (∀ x ∈ xs, fn.uniqueName ≤ x ∧ x < fn'.uniqueName) ∧ xs.Nodup
  | 0, _, _, _, declared => by
      cases declared
      exact ⟨rfl, le_refl _, by simp, List.nodup_nil⟩
  | count + 1, fn, fn', xs, declared => by
      simp only [declarePhis, Option.bind_eq_some_iff, Option.map_eq_some_iff] at declared
      obtain ⟨printed, wasPrinted, ⟨rest, last⟩, ofRest, equal⟩ := declared
      cases equal
      obtain ⟨terms, names, -, -⟩ := print_eq_some wasPrinted
      have named : printed.uniqueName = fn.uniqueName + 1 := names
      obtain ⟨termsRest, later, between, nodup⟩ := declarePhis_names count ofRest
      have later' : printed.uniqueName ≤ last.uniqueName := later
      refine ⟨termsRest.trans terms, ?_, ?_, ?_⟩
      · change fn.uniqueName ≤ last.uniqueName
        omega
      · intro x member
        cases List.mem_cons.mp member with
        | inl first =>
            rw [first]
            change fn.uniqueName ≤ fn.uniqueName ∧ fn.uniqueName < last.uniqueName
            omega
        | inr inRest =>
            have bounds := between x inRest
            exact ⟨by omega, bounds.2⟩
      · refine List.nodup_cons.mpr ⟨fun member => ?_, nodup⟩
        have bounds := (between _ member).1
        change printed.uniqueName ≤ fn.uniqueName at bounds
        omega

variable (m fuel) in
omit [DecidableEq Op] in
theorem declarePhis_runs : ∀ (count : Nat) {fn fn' : FnEmitter Op Fn} {xs : List Nat}, fn.Wf →
    declarePhis abs count fn = some (xs, fn') →
    Emits m fuel abs (fun place => abs <:+ place) [] fn fn' ∧
      Prints abs fn fn' fun text =>
        ∀ (vars : Vars Word) (world : World (Effect Fn) Label Word Mem),
          ∃ vars', (Stmt.block text).exec m fuel ⟨vars, world⟩ = some (.normal, ⟨vars', world⟩) ∧
            (∀ x ∈ xs, (vars' x).isSome = true) ∧ ∀ x, x ∉ xs → vars' x = vars x
  | 0, fn, fn', xs, wf, declared => by
      cases declared
      refine ⟨Emits.refl _ _ wf, ?_⟩
      intro printed isOpen
      refine ⟨[], by rw [isOpen, List.append_nil], ?_⟩
      exact fun vars world => ⟨vars, rfl, by simp, fun _ _ => rfl⟩
  | count + 1, fn, fn', xs, wf, declared => by
      simp only [declarePhis, Option.bind_eq_some_iff, Option.map_eq_some_iff] at declared
      obtain ⟨printed, wasPrinted, ⟨rest, last⟩, ofRest, equal⟩ := declared
      cases equal
      have start : Emits m fuel abs (fun place => abs <:+ place) [] fn fn := Emits.refl _ _ wf
      have emits := start.makeUniqueName.print (List.suffix_refl abs) wasPrinted
      obtain ⟨-, -, -, prints⟩ := print_eq_some wasPrinted
      obtain ⟨emitsRest, printsRest⟩ := declarePhis_runs count emits.wf ofRest
      refine ⟨emits.trans emitsRest, ((show Prints abs fn printed _ from prints).trans printsRest).mono ?_⟩
      rintro text ⟨first, second, rfl, rfl, does⟩
      intro vars world
      obtain ⟨vars', ran, isDeclared, others⟩ :=
        does (Function.update vars fn.uniqueName (some none)) world
      refine ⟨vars', ran, ?_, ?_⟩
      · intro x member
        by_cases inRest : x ∈ rest
        · exact isDeclared x inRest
        · have first : x = fn.uniqueName := (List.mem_cons.mp member).resolve_right inRest
          rw [others x inRest, first, Function.update_self]
          rfl
      · intro x other
        have apart : x ≠ fn.uniqueName ∧ x ∉ rest := by simpa [FnEmitter.makeUniqueName] using other
        rw [others x apart.2, Function.update_of_ne apart.1]

variable (m fuel) in
/-- Initialised variables hold the words of their initial values. -/
theorem declareInitialised_runs : ∀ (args : Operands Op) {fn fn' : FnEmitter Op Fn} {xs : List Nat},
    fn.Wf → (∀ place ∈ args.places, place <:+ abs) → declareInitialised abs args fn = some (xs, fn') →
    Emits m fuel abs (fun place => abs <:+ place) args.toList fn fn' ∧
      (∀ v term, Registered fn fn' v term → v.Floating ∧ v.home <:+ abs) ∧
      (∀ x ∈ xs, fn'.Unused x ∧ fn.uniqueName ≤ x) ∧ xs.Nodup ∧
      Prints abs fn fn' fun text =>
        ∀ (env : Env Word) (held : Abs → Nat → Bool) (vars : Vars Word)
            (world : World (Effect Fn) Label Word Mem) (earlier now direct : List (Value Op)),
          Right m fn'.emittedTerms env held (properlyAround abs) vars →
          Right m fn.emittedTerms env held (· = abs) vars →
          steadyAt m held env world.mem abs earlier now direct = true →
          args.toList ⊆ now → args.toList ⊆ direct →
          (∀ u ∈ subtermsOf earlier, fn.emittedTerms u ≠ none) →
          ∃ vars' words, (Stmt.block text).exec m fuel ⟨vars, world⟩ = some (.normal, ⟨vars', world⟩) ∧
            args.eval m env = some words ∧ Holds vars' xs words ∧
            Right m fn'.emittedTerms env held (· = abs) vars' ∧
            ∀ x, x ∉ xs → (∀ v, Registered fn fn' v (.var x) → v.home ≠ abs) → vars' x = vars x
  | .nil, fn, fn', xs, wf, within, declared => by
      cases declared
      refine ⟨Emits.refl _ _ wf, fun v term registered => absurd registered not_registered_self,
        by simp, List.nodup_nil, ?_⟩
      intro printed isOpen
      refine ⟨[], by rw [isOpen, List.append_nil], ?_⟩
      intro env held vars world earlier now direct outer own steady needed used known
      exact ⟨vars, [], rfl, rfl, rfl, own, fun _ _ _ => rfl⟩
  | .cons head tail, fn, fn', xs, wf, within, declared => by
      simp only [declareInitialised, Option.bind_eq_some_iff, Option.map_eq_some_iff] at declared
      obtain ⟨⟨term, next⟩, ofHead, printed, wasPrinted, ⟨rest, last⟩, ofRest, equal⟩ := declared
      cases equal
      have headWithin : head.Within abs := fun place member =>
        within place (by simp [Operands.places, member])
      have start : Emits m fuel abs (fun _ => False) [] fn fn := Emits.refl _ _ wf
      have emitsName := start.makeUniqueName
      obtain ⟨emitsHead, found⟩ :=
        emitValue_emits m fuel head emitsName.wf headWithin ofHead
      have runs := emitValue_runs m fuel emitsName.wf headWithin ofHead
      have emitsNext : Emits m fuel abs (fun _ => False) [head] fn next := emitsName.trans emitsHead
      obtain ⟨terms, names, -, prints⟩ := print_eq_some wasPrinted
      have emits := (emitsNext.mono (fun place => abs <:+ place) _ (fun _ h => h.elim)
        (List.Subset.refl _)).print (List.suffix_refl abs) wasPrinted
      obtain ⟨emitsRest, floats, unused, nodup, printsRest⟩ := declareInitialised_runs tail emits.wf
        (fun place member => within place (by simp [Operands.places, member])) ofRest
      have unusedNext : next.Unused fn.uniqueName := emitsHead.unused wf.unused_uniqueName
      have unusedPrinted : printed.Unused fn.uniqueName := by
        rw [FnEmitter.Unused, terms, names]
        exact unusedNext
      refine ⟨emits.trans emitsRest, ?_, ?_, ?_, ?_⟩
      · intro v term' registered
        cases registered.split emitsRest.grows with
        | inl first =>
            rw [Registered, terms] at first
            exact ((emitsNext.fresh v term' first).resolve_left id).2
        | inr second => exact floats v term' second
      · intro x member
        cases List.mem_cons.mp member with
        | inl first =>
            rw [first]
            exact ⟨emitsRest.unused unusedPrinted, le_refl _⟩
        | inr inRest => exact ⟨(unused x inRest).1, emits.later.trans (unused x inRest).2⟩
      · refine List.nodup_cons.mpr ⟨fun member => ?_, nodup⟩
        have recent := (unused _ member).2
        have old := unusedPrinted.1
        change printed.uniqueName ≤ fn.uniqueName at recent
        omega
      · refine (((show Prints abs fn next _ from runs).trans prints).trans printsRest).mono ?_
        rintro text ⟨-, third, rfl, ⟨first, second, rfl, does, rfl⟩, doesRest⟩
        intro env held vars world earlier now direct outer own steady needed used known
        have outerNext : Right m next.emittedTerms env held (properlyAround abs) vars :=
          outer.mono (terms ▸ emitsRest.grows) (fun _ _ h => h) (fun _ h => h)
        obtain ⟨vars', word, ran, -, own', only, value, reads⟩ := does env held vars world earlier now
          direct outerNext own steady (needed List.mem_cons_self) (used List.mem_cons_self) known
        have declaredOnly : ∀ {homes : Abs → Prop} {before : Value Op → Option (Expr Op)},
            Extends before last.emittedTerms → Right m before env held homes vars' →
            Right m before env held homes (Function.update vars' fn.uniqueName (some (some word))) := by
          intro homes before grows right v y bound home holds
          have apart : y ≠ fn.uniqueName := by
            rintro rfl
            exact (emitsRest.unused unusedPrinted).2 v (grows v _ bound)
          rw [Function.update_of_ne apart]
          exact right v y bound home holds
        have grows : Extends next.emittedTerms last.emittedTerms := terms ▸ emitsRest.grows
        have outer' : Right m last.emittedTerms env held (properlyAround abs) vars' :=
          outer.after emitsRest.wf grows not_properlyAround_self only
        obtain ⟨vars'', words, ranRest, values, holds, own'', others⟩ := doesRest env held
          (Function.update vars' fn.uniqueName (some (some word))) world earlier now direct
          (declaredOnly (fun _ _ found => found) outer') (declaredOnly emitsRest.grows (terms.symm ▸ own'))
          steady (fun v member => needed (List.mem_cons_of_mem head member))
          (fun v member => used (List.mem_cons_of_mem head member))
          fun u member absent => known u member (emits.grows.none absent)
        refine ⟨vars'', word :: words, ?_, ?_, ?_, own'', ?_⟩
        · rw [List.append_assoc, exec_append_normal m fuel ran, List.singleton_append]
          change andThen (Stmt.exec m fuel (.declare fn.uniqueName (some term)) ⟨vars', world⟩) _ = _
          rw [Stmt.exec, reads]
          exact ranRest
        · rw [Operands.eval, value, values]
          rfl
        · have apart : fn.uniqueName ∉ rest := by
            intro member
            have recent := (unused _ member).2
            have old := unusedPrinted.1
            omega
          change Holds vars'' (fn.uniqueName :: rest) (word :: words)
          rw [Holds, List.map_cons, List.map_cons, holds, others _ apart ?_, Function.update_self]
          intro v registered home
          have recent := emitsRest.names v _ registered
          have old := unusedPrinted.1
          omega
        · intro x other unnamed
          have apart : x ≠ fn.uniqueName ∧ x ∉ rest := by simpa [FnEmitter.makeUniqueName] using other
          rw [others x apart.2 fun v registered => unnamed v (registered.later emits.grows),
            Function.update_of_ne apart.1]
          refine only x fun v registered => unnamed v ⟨registered.1, ?_⟩
          exact emitsRest.grows v _ (terms ▸ registered.2)

/-! ## Registered parameters -/

omit [DecidableEq Word] in
theorem registerEmitted_self {v : Value Op} {term : Expr Op} :
    (fn.registerEmitted v term).emittedTerms v = some term := Function.update_self _ _ _

omit [DecidableEq Word] in
theorem registerEmitted_of_ne {u v : Value Op} {term : Expr Op} (other : u ≠ v) :
    (fn.registerEmitted v term).emittedTerms u = fn.emittedTerms u := Function.update_of_ne other _ _

omit [DecidableEq Word] in
theorem registerParams_found (place : Abs) : ∀ (xs : List Nat) (i : Nat) (fn : FnEmitter Op Fn) {n x : Nat},
    xs[n]? = some x →
    (FnEmitter.registerParams place i xs fn).emittedTerms (.param place (i + n)) = some (.var x)
  | [], _, _, n, _, atName => by simp at atName
  | y :: ys, i, fn, 0, x, atName => by
      cases atName
      have others : ∀ (xs : List Nat) (j : Nat) (fn : FnEmitter Op Fn), i < j →
          (FnEmitter.registerParams place j xs fn).emittedTerms (.param place i)
            = fn.emittedTerms (.param place i) := by
        intro xs
        induction xs with
        | nil => exact fun _ _ _ => rfl
        | cons z zs ih =>
            intro j fn after
            rw [FnEmitter.registerParams, ih (j + 1) _ (by omega)]
            refine registerEmitted_of_ne ?_
            rintro equal
            cases equal
            omega
      rw [Nat.add_zero, FnEmitter.registerParams, others ys (i + 1) _ (Nat.lt_succ_self i)]
      exact registerEmitted_self
  | y :: ys, i, fn, n + 1, x, atName => by
      have later := registerParams_found place ys (i + 1) (fn.registerEmitted (.param place i) (.var y))
        (n := n) (x := x) atName
      have shift : i + (n + 1) = i + 1 + n := by omega
      rw [shift]
      exact later

omit [DecidableEq Word] in
theorem registerParams_cases (place : Abs) : ∀ (xs : List Nat) (i : Nat) (fn : FnEmitter Op Fn)
    {v : Value Op} {term : Expr Op},
    (FnEmitter.registerParams place i xs fn).emittedTerms v = some term →
    fn.emittedTerms v = some term ∨
      ∃ n x, v = .param place (i + n) ∧ xs[n]? = some x ∧ term = .var x
  | [], _, _, _, _, found => .inl found
  | y :: ys, i, fn, v, term, found => by
      cases registerParams_cases place ys (i + 1) _ found with
      | inl before =>
          by_cases same : v = .param place i
          · refine .inr ⟨0, y, same, rfl, ?_⟩
            rw [same] at before
            exact (Option.some.inj (registerEmitted_self.symm.trans before)).symm
          · exact .inl ((registerEmitted_of_ne same).symm.trans before)
      | inr param =>
          obtain ⟨n, x, equal, atName, spelled⟩ := param
          refine .inr ⟨n + 1, x, ?_, atName, spelled⟩
          rw [equal]
          congr 1
          omega

omit [DecidableEq Word] in
theorem registerParams_rest (place : Abs) : ∀ (xs : List Nat) (i : Nat) (fn : FnEmitter Op Fn),
    (FnEmitter.registerParams place i xs fn).instructionPrinters = fn.instructionPrinters ∧
      (FnEmitter.registerParams place i xs fn).uniqueName = fn.uniqueName
  | [], _, _ => ⟨rfl, rfl⟩
  | y :: ys, i, fn => registerParams_rest place ys (i + 1) (fn.registerEmitted (.param place i) (.var y))

theorem Emits.registerParams {inside : Abs → Prop} {vs : List (Value Op)} {place : Abs}
    (isInside : inside place) : ∀ (xs : List Nat) (i : Nat) {fn' : FnEmitter Op Fn},
    Emits m fuel here inside vs fn fn' → (∀ j, i ≤ j → fn'.emittedTerms (.param place j) = none) →
    (∀ x ∈ xs, fn'.Unused x ∧ fn.uniqueName ≤ x) → xs.Nodup →
    Emits m fuel here inside vs fn (FnEmitter.registerParams place i xs fn')
  | [], _, _, before, _, _, _ => before
  | x :: xs, i, fn', before, missing, unused, nodup => by
      have unusedHead := unused x List.mem_cons_self
      have once : Emits m fuel here inside vs fn (fn'.registerEmitted (.param place i) (.var x)) := by
        refine before.register rfl (missing i le_rfl) ⟨x, rfl⟩ ?_ (le_refl _) ?_ (.inl isInside) ?_
        · intro p member
          rw [List.mem_singleton.mp member]
          exact List.suffix_refl place
        · intro y equal
          cases equal
          exact ⟨unusedHead.2, unusedHead.1.1, unusedHead.1.2⟩
        · intro p outside
          exact Hoists.of_unbound rfl (missing i le_rfl) rfl fun home =>
            absurd (home ▸ isInside : inside p) outside
      refine Emits.registerParams isInside xs (i + 1) once ?_ ?_ (List.nodup_cons.mp nodup).2
      · intro j after
        refine (registerEmitted_of_ne ?_).trans (missing j (by omega))
        rintro equal
        cases equal
        omega
      · intro y member
        have unusedOne := unused y (List.mem_cons_of_mem x member)
        refine ⟨⟨unusedOne.1.1, ?_⟩, unusedOne.2⟩
        intro v bound
        by_cases same : v = .param place i
        · rw [same] at bound
          cases registerEmitted_self.symm.trans bound
          exact (List.nodup_cons.mp nodup).1 member
        · exact unusedOne.1.2 v ((registerEmitted_of_ne same).symm.trans bound)

end Transfers

end Shady.Backend
