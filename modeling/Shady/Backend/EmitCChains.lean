import Shady.Backend.EmitCValues

/-!
# Emission of chains and transfers

The printed chain of an abstraction performs its instructions in order, and the printed
assignments of a merge give its variables the words of the arguments.
-/

set_option autoImplicit false

namespace Shady.Backend

open Imperative

/-! ## Environments that know more -/

section Environments
variable {Op Fn Word Mem : Type} {m : Machine Op (Effect Fn) Word Mem}

def Env.Le (env env' : Env Word) : Prop :=
  ∀ (place : Abs) (i : Nat) (word : Word), ((env.params place)[i]? = some word → (env'.params place)[i]? = some word) ∧
    ((env.results place)[i]? = some word → (env'.results place)[i]? = some word)

def Env.AgreesAt (env env' : Env Word) (place : Abs) : Prop :=
  env'.params place = env.params place ∧ env'.results place = env.results place

mutual
theorem Value.eval_mono {env env' : Env Word} (le : env.Le env') :
    ∀ (v : Value Op) {word : Word}, v.eval m env = some word → v.eval m env' = some word
  | .param place i, word, value => (le place i word).1 value
  | .literal _, _, value => value
  | .load place k _, word, value => (le place k word).2 value
  | .result place k, word, value => (le place k word).2 value
  | .primOp _ operands, word, value => by
      rw [Value.eval, Option.map_eq_some_iff] at value ⊢
      obtain ⟨words, values, equal⟩ := value
      exact ⟨words, Operands.eval_mono le operands values, equal⟩
  | .inlined _ operands, word, value => by
      rw [Value.eval, Option.map_eq_some_iff] at value ⊢
      obtain ⟨words, values, equal⟩ := value
      exact ⟨words, Operands.eval_mono le operands values, equal⟩
theorem Operands.eval_mono {env env' : Env Word} (le : env.Le env') :
    ∀ (vs : Operands Op) {words : List Word}, vs.eval m env = some words → vs.eval m env' = some words
  | .nil, _, values => values
  | .cons head tail, words, values => by
      simp only [Operands.eval, Option.bind_eq_some_iff, Option.map_eq_some_iff] at values ⊢
      obtain ⟨word, value, rest, valuesRest, equal⟩ := values
      exact ⟨word, Value.eval_mono le head value, rest, Operands.eval_mono le tail valuesRest, equal⟩
end

mutual
theorem Value.eval_congr {env env' : Env Word} :
    ∀ (v : Value Op), (∀ place ∈ v.places, env.AgreesAt env' place) → v.eval m env' = v.eval m env
  | .param place i, agrees => by
      rw [Value.eval, Value.eval, (agrees place (by simp [Value.places])).1]
  | .literal _, _ => rfl
  | .load place k _, agrees => by
      rw [Value.eval, Value.eval, (agrees place (by simp [Value.places])).2]
  | .result place k, agrees => by
      rw [Value.eval, Value.eval, (agrees place (by simp [Value.places])).2]
  | .primOp _ operands, agrees => by
      rw [Value.eval, Value.eval, Operands.eval_congr operands agrees]
  | .inlined _ operands, agrees => by
      rw [Value.eval, Value.eval, Operands.eval_congr operands agrees]
theorem Operands.eval_congr {env env' : Env Word} :
    ∀ (vs : Operands Op), (∀ place ∈ vs.places, env.AgreesAt env' place) →
      vs.eval m env' = vs.eval m env
  | .nil, _ => rfl
  | .cons head tail, agrees => by
      rw [Operands.eval, Operands.eval,
        Value.eval_congr head fun place member => agrees place (by simp [Operands.places, member]),
        Operands.eval_congr tail fun place member => agrees place (by simp [Operands.places, member])]
end

theorem Env.le_push (env : Env Word) (abs : Abs) (word : Word) :
    env.Le (env.setResults abs (env.results abs ++ [word])) := by
  intro place i word'
  refine ⟨id, ?_⟩
  intro found
  by_cases here : place = abs
  · rw [here] at found ⊢
    have inside := (List.getElem?_eq_some_iff.mp found).1
    simp only [Env.setResults, Function.update_self]
    rw [List.getElem?_append_left inside]
    exact found
  · simp only [Env.setResults, Function.update_of_ne here]
    exact found

theorem Right.le {terms : Value Op → Option (Expr Op)} {env env' : Env Word}
    {held : Abs → Nat → Bool} {homes : Abs → Prop} {vars : Vars Word}
    (right : Right m terms env held homes vars) (le : env.Le env') :
    Right m terms env' held homes vars := by
  intro v x bound home holds
  obtain ⟨word, value, stored⟩ := right v x bound home holds
  exact ⟨word, Value.eval_mono le v value, stored⟩

/-- What is right depends on the environment around the homes only. -/
theorem Right.congr {fn : FnEmitter Op Fn} {env : Env Word} (env' : Env Word) {held : Abs → Nat → Bool}
    {homes : Abs → Prop} {vars : Vars Word} (wf : fn.Wf)
    (right : Right m fn.emittedTerms env held homes vars)
    (agrees : ∀ place home, homes home → place <:+ home → env.AgreesAt env' place) :
    Right m fn.emittedTerms env' held homes vars := by
  intro v x bound home holds
  obtain ⟨word, value, stored⟩ := right v x bound home holds
  refine ⟨word, ?_, stored⟩
  rw [Value.eval_congr v fun place member => agrees place v.home home (wf.placed v _ bound place member)]
  exact value

end Environments

section Chains
variable {Op Fn Word Mem : Type} [DecidableEq Op] [DecidableEq Word]
variable {m : Machine Op (Effect Fn) Word Mem} {fuel : Nat}
variable {fn fn' fn'' : FnEmitter Op Fn} {abs here : Abs}

/-- What is steady where it is needed can be computed when it is registered. -/
theorem Emits.computable {inside : Abs → Prop} {vs earlier now direct : List (Value Op)}
    {held : Abs → Nat → Bool} {env : Env Word} {mem : Mem}
    (emits : Emits m fuel here inside vs fn fn') (outside : ¬ inside abs)
    (steady : steadyAt m held env mem abs earlier now direct = true) (listed : vs ⊆ now)
    (known : ∀ u ∈ subtermsOf earlier, fn.emittedTerms u ≠ none) {v : Value Op} {term : Expr Op}
    (registered : Registered fn fn' v term) (home : v.home = abs) :
    v.computable m held env mem = true := by
  rw [steadyAt, Bool.and_eq_true] at steady
  refine List.all_eq_true.mp steady.1 v ?_
  have needed : v ∈ subtermsOf vs := by
    cases emits.fresh v term registered with
    | inl isInside => exact absurd (home ▸ isInside) outside
    | inr asked => exact asked.1
  refine List.mem_filter.mpr ⟨subtermsOf_mono listed needed, ?_⟩
  refine decide_eq_true ⟨home, ?_⟩
  exact fun before => known v before registered.1

theorem steady_of_mem {held : Abs → Nat → Bool} {env : Env Word} {mem : Mem}
    {earlier now direct : List (Value Op)}
    (steady : steadyAt m held env mem abs earlier now direct = true) {v : Value Op}
    (member : v ∈ direct) : v.steady m held env mem = true := by
  rw [steadyAt, Bool.and_eq_true] at steady
  exact List.all_eq_true.mp steady.2 v member

omit [DecidableEq Op] in
theorem Operands.steady_of_all {held : Abs → Nat → Bool} {env : Env Word} {mem : Mem} :
    ∀ vs : Operands Op, (∀ v ∈ vs.toList, v.steady m held env mem = true) →
      vs.steady m held env mem = true
  | .nil, _ => rfl
  | .cons head tail, all => by
      rw [Operands.steady, Bool.and_eq_true]
      exact ⟨all head (by simp [Operands.toList]),
        Operands.steady_of_all tail fun v member => all v (by simp [Operands.toList, member])⟩

/-- A text that gets no further than the end of a block, and what has been computed there. -/
def Prints (abs : Abs) (fn fn' : FnEmitter Op Fn) (does : List (CStmt Op Fn) → Prop) : Prop :=
  ∀ printed, fn.instructionPrinters abs = some printed →
    ∃ text, fn'.instructionPrinters abs = some (printed ++ text) ∧ does text

omit [DecidableEq Op] [DecidableEq Word] in
theorem Operands.registered_of_texts {terms : Value Op → Option (Expr Op)} {v : Value Op} :
    ∀ {vs : Operands Op} {texts : Exprs Op}, vs.texts terms = some texts → v ∈ vs.toList →
      terms v ≠ none
  | .nil, _, _, member => by simp [Operands.toList] at member
  | .cons head tail, texts, spelled, member => by
      simp only [Operands.texts, Option.bind_eq_some_iff, Option.map_eq_some_iff] at spelled
      obtain ⟨text, ofHead, rest, ofTail, -⟩ := spelled
      cases List.mem_cons.mp member with
      | inl same => rw [same, ofHead]; exact Option.some_ne_none text
      | inr later => exact Operands.registered_of_texts ofTail later

variable (m fuel) in
/-- The texts of operands that are emitted now mean the operands, once what was hoisted ran. -/
theorem emitOperands_runs {vs : Operands Op} {texts : Exprs Op} (wf : fn.Wf)
    (within : ∀ place ∈ vs.places, place <:+ abs) (emitted : emitOperands vs fn = some (texts, fn')) :
    Prints abs fn fn' fun text =>
      ∀ (env : Env Word) (held : Abs → Nat → Bool) (vars : Vars Word)
          (world : World (Effect Fn) Label Word Mem) (earlier now direct : List (Value Op)),
        Right m fn'.emittedTerms env held (properlyAround abs) vars →
        Right m fn.emittedTerms env held (· = abs) vars →
        steadyAt m held env world.mem abs earlier now direct = true →
        vs.toList ⊆ now → vs.toList ⊆ direct →
        (∀ u ∈ subtermsOf earlier, fn.emittedTerms u ≠ none) →
        ∃ vars' words, (Stmt.block text).exec m fuel ⟨vars, world⟩ = some (.normal, ⟨vars', world⟩) ∧
          Right m fn'.emittedTerms env held (properlyAround abs) vars' ∧
          Right m fn'.emittedTerms env held (· = abs) vars' ∧ OnlyRegistered fn fn' abs vars vars' ∧
          vs.eval m env = some words ∧ texts.eval m vars' world.mem = some words := by
  obtain ⟨emits, spelled⟩ := emitOperands_emits m fuel vs wf within emitted
  intro printed isOpen
  obtain ⟨text, isOpen', settles⟩ := emits.hoists abs id printed isOpen
  refine ⟨text, isOpen', ?_⟩
  intro env held vars world earlier now direct outer own steady needed used known
  obtain ⟨vars', ran, own', only⟩ := settles env held vars world outer own
    fun v term registered home => emits.computable id steady needed known registered home
  have outer' := outer.after emits.wf (fun _ _ found => found) not_properlyAround_self only
  obtain ⟨words, values, reads⟩ := Operands.texts_eval emits.wf (outer'.around own') vs texts spelled within
    (Operands.steady_of_all vs fun v member => steady_of_mem steady (used member))
  exact ⟨vars', words, ran, outer', own', only, values, reads⟩

omit [DecidableEq Op] in
theorem print_eq_some {text : CStmt Op Fn} (emitted : fn.print abs text = some fn') :
    fn'.emittedTerms = fn.emittedTerms ∧ fn'.uniqueName = fn.uniqueName ∧
      (∀ place, place ≠ abs → fn'.instructionPrinters place = fn.instructionPrinters place) ∧
      Prints abs fn fn' (· = [text]) := by
  rw [FnEmitter.print, Option.map_eq_some_iff] at emitted
  obtain ⟨printed, isOpen, rfl⟩ := emitted
  refine ⟨rfl, rfl, fun place other => Function.update_of_ne other _ _, ?_⟩
  intro printed' isOpen'
  rw [isOpen] at isOpen'
  cases isOpen'
  exact ⟨[text], Function.update_self _ _ _, rfl⟩

omit [DecidableEq Op] in
/-- Printing inside registers nothing. -/
theorem Emits.print {inside : Abs → Prop} {vs : List (Value Op)} {text : CStmt Op Fn}
    (before : Emits m fuel here inside vs fn fn') (isInside : inside abs)
    (emitted : fn'.print abs text = some fn'') : Emits m fuel here inside vs fn fn'' := by
  obtain ⟨terms, names, others, -⟩ := print_eq_some emitted
  have grows : Extends fn'.emittedTerms fn''.emittedTerms := by
    rw [terms]
    exact fun _ _ found => found
  have none_new : ∀ {v : Value Op} {term : Expr Op}, ¬ Registered fn' fn'' v term := by
    intro v term registered
    have found := registered.2
    rw [terms, registered.1] at found
    cases found
  have wf : fn''.Wf := by
    obtain ⟨shaped, named, distinct, placed⟩ := before.wf
    constructor
    case shaped => rw [terms]; exact shaped
    case named => rw [terms, names]; exact named
    case distinct => rw [terms]; exact distinct
    case placed => rw [terms]; exact placed
  constructor
  case grows => exact before.grows.trans grows
  case later => exact names ▸ before.later
  case wf => exact wf
  case fresh =>
    intro v term registered
    cases registered.split grows with
    | inl first => exact before.fresh v term first
    | inr second => exact absurd second none_new
  case names =>
    intro v x registered
    cases registered.split grows with
    | inl first => exact before.names v x first
    | inr second => exact absurd second none_new
  case hoists =>
    intro place outside
    have other : place ≠ abs := fun same => outside (same ▸ isInside)
    refine (before.hoists place outside).trans before.grows grows wf ?_
    exact Hoists.quiet grows (others place other) fun v x registered => absurd registered none_new

omit [DecidableEq Op] in
theorem Emits.makeUniqueName {inside : Abs → Prop} {vs : List (Value Op)}
    (before : Emits m fuel here inside vs fn fn') :
    Emits m fuel here inside vs fn fn'.makeUniqueName.2 where
  grows := before.grows
  later := before.later.trans (Nat.le_succ _)
  fresh := before.fresh
  names := before.names
  wf := {
    shaped := before.wf.shaped
    named := fun v x bound => (before.wf.named v x bound).trans (Nat.lt_succ_self _)
    distinct := before.wf.distinct
    placed := before.wf.placed }
  hoists := before.hoists

omit [DecidableEq Op] [DecidableEq Word] in
theorem FnEmitter.Wf.unused_uniqueName (wf : fn.Wf) : fn.makeUniqueName.2.Unused fn.uniqueName :=
  ⟨Nat.lt_succ_self _, fun v bound => absurd (wf.named v _ bound) (lt_irrefl _)⟩

/-! ## Instructions -/

/-- The words of an abstraction's results, after one more instruction. -/
def Env.push (env : Env Word) (abs : Abs) (word : Word) : Env Word :=
  env.setResults abs (env.results abs ++ [word])

/-- What running a piece of the chain, and running its text, have to do with each other. -/
structure Performed (m : Machine Op (Effect Fn) Word Mem) (abs : Abs) (fn fn' : FnEmitter Op Fn)
    (env : Env Word) (vars : Vars Word) (c' : Config Fn Word Mem) (vars' : Vars Word) : Prop where
  le : env.Le c'.env
  agrees : ∀ place, place ≠ abs → env.AgreesAt c'.env place
  own : Right m fn'.emittedTerms c'.env heldAlways (· = abs) vars'
  only : OnlyRegistered fn fn' abs vars vars'

def Performs (m : Machine Op (Effect Fn) Word Mem) (fuel : Nat) (abs : Abs) (k count : Nat)
    (fn fn' : FnEmitter Op Fn) (earlier : List (Value Op))
    (run : Config Fn Word Mem → Option (Config Fn Word Mem)) (text : List (CStmt Op Fn)) : Prop :=
  ∀ (env : Env Word) (vars : Vars Word) (world : World (Effect Fn) Label Word Mem) c',
    (∀ u ∈ subtermsOf earlier, fn.emittedTerms u ≠ none) →
    Right m fn'.emittedTerms env heldAlways (properlyAround abs) vars →
    Right m fn.emittedTerms env heldAlways (· = abs) vars →
    (env.results abs).length = k → run ⟨env, world⟩ = some c' →
    ∃ vars', (Stmt.block text).exec m fuel ⟨vars, world⟩ = some (.normal, ⟨vars', c'.world⟩) ∧
      Performed m abs fn fn' env vars c' vars' ∧ (c'.env.results abs).length = k + count

/-- The emission of instructions from the `k`-th on. -/
structure EmitsChain (m : Machine Op (Effect Fn) Word Mem) (fuel : Nat) (abs : Abs) (k count : Nat)
    (vs : List (Value Op)) (fn fn' : FnEmitter Op Fn) : Prop where
  emits : Emits m fuel abs (fun place => abs <:+ place) vs fn fn'
  listed : ∀ v ∈ vs, fn'.emittedTerms v ≠ none
  kinds : ∀ v term, Registered fn fn' v term →
    v.Floating ∨ ∃ j, k ≤ j ∧ j < k + count ∧ ((∃ ptr, v = .load abs j ptr) ∨ v = .result abs j)
  homes : ∀ v term, Registered fn fn' v term → v.home <:+ abs

omit [DecidableEq Op] [DecidableEq Word] in
theorem Prints.trans {does does' : List (CStmt Op Fn) → Prop} (before : Prints abs fn fn' does)
    (after : Prints abs fn' fn'' does') :
    Prints abs fn fn'' fun text => ∃ first second, text = first ++ second ∧ does first ∧ does' second := by
  intro printed isOpen
  obtain ⟨first, isOpen', did⟩ := before printed isOpen
  obtain ⟨second, isOpen'', did'⟩ := after _ isOpen'
  exact ⟨first ++ second, by rw [isOpen'', List.append_assoc], first, second, rfl, did, did'⟩

omit [DecidableEq Op] [DecidableEq Word] in
theorem Prints.mono {does does' : List (CStmt Op Fn) → Prop} (prints : Prints abs fn fn' does)
    (implied : ∀ text, does text → does' text) : Prints abs fn fn' does' := by
  intro printed isOpen
  obtain ⟨text, isOpen', did⟩ := prints printed isOpen
  exact ⟨text, isOpen', implied text did⟩

omit [DecidableEq Op] [DecidableEq Word] in
theorem OnlyRegistered.trans {vars vars' vars'' : Vars Word}
    (grows : Extends fn.emittedTerms fn'.emittedTerms)
    (grows' : Extends fn'.emittedTerms fn''.emittedTerms)
    (before : OnlyRegistered fn fn' abs vars vars') (after : OnlyRegistered fn' fn'' abs vars' vars'') :
    OnlyRegistered fn fn'' abs vars vars'' := by
  intro x unnamed
  rw [after x fun v registered => unnamed v (registered.later grows),
    before x fun v registered => unnamed v (registered.earlier grows')]

omit [DecidableEq Op] [DecidableEq Word] in
theorem OnlyRegistered.of_terms {vars vars' : Vars Word}
    (terms : fn''.emittedTerms = fn'.emittedTerms) (only : OnlyRegistered fn fn' abs vars vars') :
    OnlyRegistered fn fn'' abs vars vars' := by
  intro x unnamed
  refine only x fun v registered => unnamed v ⟨registered.1, ?_⟩
  rw [terms]
  exact registered.2

omit [DecidableEq Word] [DecidableEq Op] in
theorem check_bind_eq_some {α : Type} {holds : Bool} {next : Option α} {a : α} :
    ((check true holds).bind fun _ => next) = some a ↔ holds = true ∧ next = some a := by
  cases holds <;> simp [check]

omit [DecidableEq Op] [DecidableEq Word] in
theorem runEffect_eq_some {kind : Effect Fn} {operands : Operands Op} {c c' : Config Fn Word Mem}
    (ran : runEffect m abs kind operands c = some c') : ∃ words, operands.eval m c.env = some words ∧
      c'.world = (c.world.perform m kind words).1 ∧
      c'.env = c.env.push abs (c.world.perform m kind words).2 := by
  rw [runEffect, Option.map_eq_some_iff] at ran
  obtain ⟨words, values, rfl⟩ := ran
  exact ⟨words, values, rfl, rfl⟩

omit [DecidableEq Op] [DecidableEq Word] in
theorem Env.agreesAt_push {env : Env Word} {word : Word} {place : Abs} (other : place ≠ abs) :
    env.AgreesAt (env.push abs word) place :=
  ⟨rfl, Function.update_of_ne other _ _⟩

omit [DecidableEq Op] [DecidableEq Word] in
theorem Env.results_push {env : Env Word} {word : Word} :
    (env.push abs word).results abs = env.results abs ++ [word] := Function.update_self _ _ _

/-- An effect is performed with the words of its operands, and its result kept in a variable. -/
theorem emitEffect_runs {k : Nat} {kind : Effect Fn} {operands : Operands Op} {returns : Bool}
    (wf : fn.Wf) (within : ∀ place ∈ operands.places, place <:+ abs)
    (missing : fn.emittedTerms (.result abs k) = none)
    (emitted : emitEffect abs k kind operands returns fn = some fn') :
    EmitsChain m fuel abs k 1 operands.toList fn fn' ∧
      Prints abs fn fn' fun text => ∀ earlier,
        Performs m fuel abs k 1 fn fn' earlier
          (fun c => (check true (steadyAt m heldAlways c.env c.world.mem abs earlier
            operands.toList operands.toList)).bind fun _ => runEffect m abs kind operands c) text := by
  rw [emitEffect, Option.bind_eq_some_iff] at emitted
  obtain ⟨⟨texts, next⟩, ofOperands, emitted⟩ := emitted
  obtain ⟨emits, spelled⟩ := emitOperands_emits m fuel operands wf within ofOperands
  have runs := emitOperands_runs m fuel wf within ofOperands
  have emitsInside := emits.mono (fun place => abs <:+ place) _ (fun _ h => h.elim)
    (List.Subset.refl _)
  have listed : ∀ v ∈ operands.toList, next.emittedTerms v ≠ none := fun v member =>
    Operands.registered_of_texts spelled member
  cases returns with
  | false =>
      obtain ⟨terms, -, -, prints⟩ := print_eq_some emitted
      refine ⟨⟨emitsInside.print (List.suffix_refl abs) emitted, terms ▸ listed, ?_, ?_⟩, ?_⟩
      · intro v term registered
        rw [Registered, terms] at registered
        exact .inl ((emits.fresh v term registered).resolve_left id).2.1
      · intro v term registered
        rw [Registered, terms] at registered
        exact ((emits.fresh v term registered).resolve_left id).2.2
      · refine (runs.trans prints).mono ?_
        rintro text ⟨first, second, rfl, does, rfl⟩
        intro earlier env vars world c' known outer own count ran
        obtain ⟨steady, ran⟩ := check_bind_eq_some.mp ran
        obtain ⟨words, values, worldAfter, envAfter⟩ := runEffect_eq_some ran
        obtain ⟨vars', words', ranFirst, -, own', only, values', reads⟩ :=
          does env heldAlways vars world earlier _ _ (terms ▸ outer) own steady (List.Subset.refl _)
            (List.Subset.refl _) known
        cases values.symm.trans values'
        refine ⟨vars', ?_, ⟨?_, ?_, ?_, only.of_terms terms⟩, ?_⟩
        · rw [exec_append_normal m fuel ranFirst, exec_singleton, Stmt.exec, reads, worldAfter]
          rfl
        · rw [envAfter]
          exact env.le_push abs _
        · intro place other
          rw [envAfter]
          exact Env.agreesAt_push other
        · rw [envAfter, terms]
          exact own'.le (env.le_push abs _)
        · rw [envAfter, Env.results_push, List.length_append, count]
          rfl
  | true =>
      simp only [if_true, Option.map_eq_some_iff] at emitted
      obtain ⟨printed, wasPrinted, rfl⟩ := emitted
      obtain ⟨terms, names, -, prints⟩ := print_eq_some wasPrinted
      have terms' : printed.emittedTerms = next.emittedTerms := terms
      have names' : printed.uniqueName = next.uniqueName + 1 := names
      have missing' : printed.emittedTerms (.result abs k) = none :=
        terms' ▸ emits.fixed_missing missing id
      have before := emitsInside.makeUniqueName.print (List.suffix_refl abs) wasPrinted
      have grows : Extends printed.emittedTerms
          (printed.registerEmitted (.result abs k) (.var next.uniqueName)).emittedTerms :=
        extends_update missing'
      have home : (Value.result abs k : Value Op).home = abs := rfl
      refine ⟨⟨?_, ?_, ?_, ?_⟩, ?_⟩
      · refine before.register rfl missing' ⟨_, rfl⟩ ?_ (le_refl _) ?_ (.inl (List.suffix_refl abs)) ?_
        · intro place member
          rw [List.mem_singleton.mp member]
          exact List.suffix_refl abs
        · intro x equal
          cases equal
          refine ⟨emits.later, names' ▸ Nat.lt_succ_self _, ?_⟩
          intro u bound
          rw [terms'] at bound
          exact lt_irrefl _ (emits.wf.named u _ bound)
        · intro place outside
          exact Hoists.of_unbound rfl missing' rfl fun here =>
            absurd (here ▸ List.suffix_refl abs) outside
      · intro v member absent
        exact listed v member (terms' ▸ grows.none absent)
      · intro v term registered
        cases registered.split grows with
        | inl first =>
            rw [Registered, terms'] at first
            exact .inl ((emits.fresh v term first).resolve_left id).2.1
        | inr second =>
            exact .inr ⟨k, le_refl k, Nat.lt_succ_self k, .inr (registered_update rfl second).1⟩
      · intro v term registered
        cases registered.split grows with
        | inl first =>
            rw [Registered, terms'] at first
            exact ((emits.fresh v term first).resolve_left id).2.2
        | inr second =>
            rw [(registered_update rfl second).1, home]
      · refine (runs.trans prints).mono ?_
        rintro text ⟨first, second, rfl, does, rfl⟩
        intro earlier env vars world c' known outer own count ran
        obtain ⟨steady, ran⟩ := check_bind_eq_some.mp ran
        obtain ⟨words, values, worldAfter, envAfter⟩ := runEffect_eq_some ran
        obtain ⟨vars', words', ranFirst, -, own', only, values', reads⟩ :=
          does env heldAlways vars world earlier _ _
            (outer.mono (terms' ▸ grows) (fun _ _ h => h) (fun _ h => h)) own steady
            (List.Subset.refl _) (List.Subset.refl _) known
        cases values.symm.trans values'
        refine ⟨Function.update vars' next.uniqueName (some (some (world.perform m kind words).2)),
          ?_, ⟨?_, ?_, ?_, ?_⟩, ?_⟩
        · rw [exec_append_normal m fuel ranFirst, exec_singleton, Stmt.exec, reads, worldAfter]
          rfl
        · rw [envAfter]
          exact env.le_push abs _
        · intro place other
          rw [envAfter]
          exact Env.agreesAt_push other
        · rw [envAfter]
          intro v x bound here holds
          by_cases same : v = .result abs k
          · rw [same] at bound ⊢
            cases (Function.update_self (Value.result abs k) _ printed.emittedTerms).symm.trans bound
            refine ⟨_, ?_, Function.update_self _ _ _⟩
            rw [Value.eval, Env.results_push, ← count, List.getElem?_concat_length]
          · have old : next.emittedTerms v = some (.var x) :=
              terms' ▸ (Function.update_of_ne same _ _).symm.trans bound
            obtain ⟨word, value, stored⟩ := own'.le (env.le_push abs _) v x old here holds
            refine ⟨word, value, ?_⟩
            rw [Function.update_of_ne (emits.wf.named v x old).ne]
            exact stored
        · intro x unnamed
          have other : x ≠ next.uniqueName := by
            rintro rfl
            refine unnamed (.result abs k) ⟨missing, Function.update_self _ _ _⟩ home
          rw [Function.update_of_ne other]
          refine only x fun v registered => unnamed v ⟨registered.1, ?_⟩
          exact grows v _ (terms' ▸ registered.2)
        · rw [envAfter, Env.results_push, List.length_append, count]
          rfl

omit [DecidableEq Op] [DecidableEq Word] in
theorem suffix_antisymm {inner outer : Abs} (first : inner <:+ outer) (second : outer <:+ inner) :
    inner = outer :=
  first.eq_of_length_le second.length_le

/-- A load is registered as an access to what its pointer is spelled as. -/
theorem emitLoad_runs {k : Nat} {ptr : Value Op} (wf : fn.Wf) (within : ptr.Within abs)
    (missing : fn.emittedTerms (.load abs k ptr) = none)
    (emitted : emitInstruction abs k (.load ptr : Instr Op Fn) fn = some fn') :
    EmitsChain m fuel abs k 1 [ptr] fn fn' ∧
      Prints abs fn fn' fun text => ∀ earlier,
        Performs m fuel abs k 1 fn fn' earlier
          (fun c => (check true (steadyAt m heldAlways c.env c.world.mem abs earlier [ptr] [ptr])).bind
            fun _ => runInstr m abs (.load ptr : Instr Op Fn) c) text := by
  rw [emitInstruction, Option.map_eq_some_iff] at emitted
  obtain ⟨⟨text, next⟩, ofPtr, rfl⟩ := emitted
  obtain ⟨emits, found⟩ := emitValue_emits m fuel ptr wf within ofPtr
  have missing' : next.emittedTerms (.load abs k ptr) = none := emits.fixed_missing missing id
  have grows : Extends next.emittedTerms
      (next.registerEmitted (.load abs k ptr) (.deref text)).emittedTerms := extends_update missing'
  have around : (Value.load abs k ptr).Within abs := by
    intro place member
    cases List.mem_cons.mp member with
    | inl own => rw [own]
    | inr inner => exact within place inner
  have home : abs <:+ (Value.load abs k ptr).home :=
    around.at_home abs (by simp [Value.places])
  refine ⟨⟨?_, ?_, ?_, ?_⟩, ?_⟩
  · refine (emits.mono (fun place => abs <:+ place) _ (fun _ h => h.elim)
      (List.Subset.refl _)).register rfl missing' ⟨text, found, rfl⟩ around.at_home (le_refl _)
      (fun x equal => nomatch equal) (.inl home) ?_
    exact fun place _ => Hoists.of_unbound rfl missing' rfl fun _ x equal => nomatch equal
  · intro v member
    rw [List.mem_singleton.mp member, grows ptr text found]
    exact Option.some_ne_none text
  · intro v term registered
    cases registered.split grows with
    | inl first => exact .inl ((emits.fresh v term first).resolve_left id).2.1
    | inr second =>
        exact .inr ⟨k, le_refl k, Nat.lt_succ_self k, .inl ⟨ptr, (registered_update rfl second).1⟩⟩
  · intro v term registered
    cases registered.split grows with
    | inl first => exact ((emits.fresh v term first).resolve_left id).2.2
    | inr second =>
        rw [(registered_update rfl second).1]
        exact around.home
  · intro printed isOpen
    obtain ⟨hoisted, isOpen', settles⟩ := emits.hoists abs id printed isOpen
    refine ⟨hoisted, isOpen', ?_⟩
    intro earlier env vars world c' known outer own count ran
    obtain ⟨steady, ran⟩ := check_bind_eq_some.mp ran
    rw [runInstr, Option.map_eq_some_iff] at ran
    obtain ⟨address, -, rfl⟩ := ran
    obtain ⟨vars', ranHoisted, own', only⟩ := settles env heldAlways vars world
      (outer.mono grows (fun _ _ h => h) (fun _ h => h)) own
      fun v term registered here =>
        emits.computable id steady (List.Subset.refl _) known registered here
    refine ⟨vars', ranHoisted, ⟨env.le_push abs _, fun place other => Env.agreesAt_push other, ?_, ?_⟩, ?_⟩
    · intro v x bound here holds
      by_cases same : v = .load abs k ptr
      · rw [same] at bound
        cases (Function.update_self (Value.load abs k ptr) _ next.emittedTerms).symm.trans bound
      · exact own'.le (env.le_push abs _) v x ((Function.update_of_ne same _ _).symm.trans bound) here holds
    · intro x unnamed
      exact only x fun v registered => unnamed v (registered.earlier grows)
    · exact (congrArg List.length Env.results_push).trans (by rw [List.length_append, count]; rfl)

variable (m fuel) in
theorem emitInstruction_runs {k : Nat} {instr : Instr Op Fn} (wf : fn.Wf)
    (within : ∀ place ∈ instr.operands.places, place <:+ abs)
    (missing : ∀ ptr, fn.emittedTerms (.load abs k ptr) = none)
    (missing' : fn.emittedTerms (.result abs k) = none)
    (emitted : emitInstruction abs k instr fn = some fn') :
    EmitsChain m fuel abs k 1 instr.operands.toList fn fn' ∧
      Prints abs fn fn' fun text => ∀ earlier,
        Performs m fuel abs k 1 fn fn' earlier
          (fun c => (check true (steadyAt m heldAlways c.env c.world.mem abs earlier
            instr.operands.toList instr.operands.toList)).bind fun _ => runInstr m abs instr c) text := by
  cases instr with
  | load ptr =>
      refine emitLoad_runs wf (fun place member => within place ?_) (missing ptr) emitted
      simpa [Instr.operands, Operands.places] using member
  | store ptr value => exact emitEffect_runs wf within missing' emitted
  | call callee args returns =>
      cases callee with
      | fnAddr callee => exact emitEffect_runs wf within missing' emitted
      | value callee => exact emitEffect_runs wf within missing' emitted
  | copyBytes dst src count => exact emitEffect_runs wf within missing' emitted
  | fillBytes dst src count => exact emitEffect_runs wf within missing' emitted
  | localAlloc =>
      have allocated : emitEffect abs k .localAlloc .nil true fn = some fn' := emitted
      exact emitEffect_runs wf within missing' allocated

omit [DecidableEq Op] [DecidableEq Word] in
theorem known_append {earlier : List (Value Op)} (vs : List (Value Op)) (wf : fn'.Wf)
    (grows : Extends fn.emittedTerms fn'.emittedTerms)
    (known : ∀ u ∈ subtermsOf earlier, fn.emittedTerms u ≠ none)
    (listed : ∀ v ∈ vs, fn'.emittedTerms v ≠ none) :
    ∀ u ∈ subtermsOf (earlier ++ vs), fn'.emittedTerms u ≠ none := by
  intro u member
  rw [subtermsOf_append, List.mem_append] at member
  cases member with
  | inl old => exact fun absent => known u old (grows.none absent)
  | inr new =>
      obtain ⟨v, inside, below⟩ := List.mem_flatMap.mp new
      cases found : fn'.emittedTerms v with
      | none => exact absurd found (listed v inside)
      | some term =>
          obtain ⟨term', found'⟩ := Value.subterm_registered wf v term found below
          rw [found']
          exact Option.some_ne_none term'

variable (m fuel) in
/-- The chain performs its instructions in their order. -/
theorem emitMem_runs (instrs : List (Instr Op Fn)) : ∀ {k : Nat} {fn fn' : FnEmitter Op Fn}, fn.Wf →
    (∀ instr ∈ instrs, ∀ place ∈ instr.operands.places, place <:+ abs) →
    (∀ j, k ≤ j → (∀ ptr, fn.emittedTerms (.load abs j ptr) = none) ∧
      fn.emittedTerms (.result abs j) = none) →
    emitMem abs k instrs fn = some fn' →
    EmitsChain m fuel abs k instrs.length (chainValues instrs) fn fn' ∧
      Prints abs fn fn' fun text => ∀ earlier,
        Performs m fuel abs k instrs.length fn fn' earlier (runInstrs m true abs earlier instrs) text := by
  induction instrs with
  | nil =>
      intro k fn fn' wf within missing emitted
      cases emitted
      refine ⟨⟨Emits.refl _ _ wf, by simp [chainValues], ?_, ?_⟩, ?_⟩
      · exact fun v term registered => absurd registered not_registered_self
      · exact fun v term registered => absurd registered not_registered_self
      · intro printed isOpen
        refine ⟨[], by rw [isOpen, List.append_nil], ?_⟩
        intro earlier env vars world c' known outer own count ran
        cases ran
        exact ⟨vars, rfl, ⟨fun _ _ _ => ⟨id, id⟩, fun _ _ => ⟨rfl, rfl⟩, own, fun _ _ => rfl⟩, count⟩
  | cons instr rest ih =>
      intro k fn fn' wf within missing emitted
      rw [emitMem, Option.bind_eq_some_iff] at emitted
      obtain ⟨next, ofFirst, ofRest⟩ := emitted
      obtain ⟨chain, prints⟩ := emitInstruction_runs m fuel wf
        (within instr List.mem_cons_self) (missing k le_rfl).1 (missing k le_rfl).2 ofFirst
      have still : ∀ v : Value Op, ¬ v.Floating →
          (∀ j, k ≤ j → j < k + 1 → ¬ ((∃ ptr, v = .load abs j ptr) ∨ v = .result abs j)) →
          fn.emittedTerms v = none → next.emittedTerms v = none := by
        intro v fixed other absent
        cases found : next.emittedTerms v with
        | none => rfl
        | some term =>
            cases chain.kinds v term ⟨absent, found⟩ with
            | inl floating => exact absurd floating fixed
            | inr own =>
                obtain ⟨j, low, high, isOne⟩ := own
                exact absurd isOne (other j low high)
      have missing' : ∀ j, k + 1 ≤ j → (∀ ptr, next.emittedTerms (.load abs j ptr) = none) ∧
          next.emittedTerms (.result abs j) = none := by
        intro j high
        refine ⟨fun ptr => still _ id ?_ ((missing j (by omega)).1 ptr),
          still _ id ?_ (missing j (by omega)).2⟩
        · rintro i low isLow (⟨ptr', equal⟩ | equal)
          · cases equal
            omega
          · cases equal
        · rintro i low isLow (⟨ptr', equal⟩ | equal)
          · cases equal
          · cases equal
            omega
      obtain ⟨chain', prints'⟩ := ih chain.emits.wf
        (fun instr member => within instr (List.mem_cons_of_mem _ member)) missing' ofRest
      refine ⟨⟨?_, ?_, ?_, ?_⟩, ?_⟩
      · exact chain.emits.trans chain'.emits
      · intro v member
        cases List.mem_append.mp member with
        | inl first => exact fun absent => chain.listed v first (chain'.emits.grows.none absent)
        | inr later => exact chain'.listed v later
      · intro v term registered
        cases registered.split chain'.emits.grows with
        | inl first =>
            refine (chain.kinds v term first).imp id ?_
            rintro ⟨j, low, high, isOne⟩
            exact ⟨j, low, by rw [List.length_cons]; omega, isOne⟩
        | inr second =>
            refine (chain'.kinds v term second).imp id ?_
            rintro ⟨j, low, high, isOne⟩
            exact ⟨j, by omega, by rw [List.length_cons]; omega, isOne⟩
      · intro v term registered
        cases registered.split chain'.emits.grows with
        | inl first => exact chain.homes v term first
        | inr second => exact chain'.homes v term second
      · refine (prints.trans prints').mono ?_
        rintro text ⟨first, second, rfl, does, does'⟩
        intro earlier env vars world c' known outer own count ran
        rw [runInstrs, ← Option.bind_assoc, Option.bind_eq_some_iff] at ran
        obtain ⟨between, ranFirst, ranRest⟩ := ran
        obtain ⟨vars', exec, performed, count'⟩ := does earlier env vars world between known
          (outer.mono chain'.emits.grows (fun _ _ h => h) (fun _ h => h)) own count ranFirst
        have known' := known_append _ chain.emits.wf chain.emits.grows known chain.listed
        have outer' := (outer.after chain'.emits.wf chain'.emits.grows not_properlyAround_self
          performed.only).congr between.env chain'.emits.wf ?_
        · obtain ⟨vars'', exec', performed', count''⟩ := does' (earlier ++ instr.operands.toList)
            between.env vars' between.world c' known' outer' performed.own count' ranRest
          refine ⟨vars'', ?_, ⟨?_, ?_, performed'.own, ?_⟩, ?_⟩
          · rw [exec_append_normal m fuel exec]
            exact exec'
          · intro place i word
            exact ⟨fun found => (performed'.le place i word).1 ((performed.le place i word).1 found),
              fun found => (performed'.le place i word).2 ((performed.le place i word).2 found)⟩
          · intro place other
            have before := performed.agrees place other
            have after := performed'.agrees place other
            exact ⟨after.1.trans before.1, after.2.trans before.2⟩
          · exact performed.only.trans chain.emits.grows chain'.emits.grows performed'.only
          · rw [count'', List.length_cons]
            omega
        · intro place home proper inner
          refine performed.agrees place ?_
          rintro rfl
          exact proper.2 (suffix_antisymm proper.1 inner)

end Chains

end Shady.Backend
