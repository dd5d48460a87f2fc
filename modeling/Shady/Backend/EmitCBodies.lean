import Shady.Backend.EmitCConstructs

/-!
# The text of a body

A body is emitted into a text that answers its strict run, whatever is around it. The
induction is over the syntax; a loop is compared turn by turn.
-/

set_option autoImplicit false

namespace Shady.Backend

open Imperative

section Bodies
variable {Op Fn Word Mem : Type}

/-! ## What is registered below an abstraction -/

/-- Nothing inside the abstraction is registered but its own parameters. -/
def FnEmitter.Untouched (fn : FnEmitter Op Fn) (abs : Abs) : Prop :=
  ∀ v term, fn.emittedTerms v = some term → abs <:+ v.home → ∃ i, v = .param abs i

def FnEmitter.Clear (fn : FnEmitter Op Fn) (abs : Abs) : Prop :=
  ∀ v term, fn.emittedTerms v = some term → ¬ abs <:+ v.home

def FnEmitter.ClearBelow (fn : FnEmitter Op Fn) (abs : Abs) : Prop :=
  ∀ step, fn.Clear (step :: abs)

theorem FnEmitter.Clear.untouched {fn : FnEmitter Op Fn} {abs : Abs} (clear : fn.Clear abs) :
    fn.Untouched abs := fun v term found inside => absurd inside (clear v term found)

theorem FnEmitter.Clear.param {fn : FnEmitter Op Fn} {abs : Abs} (clear : fn.Clear abs) (i : Nat) :
    fn.emittedTerms (.param abs i) = none := by
  cases found : fn.emittedTerms (.param abs i) with
  | none => rfl
  | some term => exact absurd (List.suffix_refl abs) (clear _ term found)

/-! ## The ways out of a text -/

def Outcome.signal : Outcome Word → Signal Word
  | .returned words => .returned words
  | .selection _ => .normal
  | .loopContinue _ => .continued
  | .loopBreak _ => .broken

/-- The variables that are assigned to when a body is left. -/
def Phis.touched (phis : Phis) : Outcome Word → List Nat
  | .returned _ => []
  | .selection _ => phis.selection
  | .loopContinue _ => phis.loopContinue
  | .loopBreak _ => phis.loopBreak

def Phis.all (phis : Phis) : List Nat := phis.selection ++ phis.loopContinue ++ phis.loopBreak

def Phis.Declared (phis : Phis) (vars : Vars Word) : Prop :=
  ∀ x ∈ phis.all, (vars x).isSome = true

/-- The variables of the enclosing constructs: those of a selection and of a break stand for
    nothing yet, those of a continue for the parameters of the loop. -/
structure PhisOk (phis : Phis) (head : Abs) (fn : FnEmitter Op Fn) : Prop where
  selection : ∀ x ∈ phis.selection, fn.Unused x
  selection_nodup : phis.selection.Nodup
  loopBreak : ∀ x ∈ phis.loopBreak, fn.Unused x
  loopBreak_nodup : phis.loopBreak.Nodup
  loopContinue : ∀ n x, phis.loopContinue[n]? = some x →
    fn.emittedTerms (.param head n) = some (.var x)

theorem PhisOk.lt {phis : Phis} {head : Abs} {fn : FnEmitter Op Fn} (ok : PhisOk phis head fn)
    (wf : fn.Wf) {x : Nat} (member : x ∈ phis.all) : x < fn.uniqueName := by
  simp only [Phis.all, List.mem_append] at member
  obtain (inSelection | inContinue) | inBreak := member
  · exact (ok.selection x inSelection).1
  · obtain ⟨n, atName⟩ := List.mem_iff_getElem?.mp inContinue
    exact wf.named _ _ (ok.loopContinue n x atName)
  · exact (ok.loopBreak x inBreak).1

/-- Variables that are registered between two emitters, for values of some homes. -/
def NamedInside (inside : Abs → Prop) (fn fn' : FnEmitter Op Fn) (x : Nat) : Prop :=
  ∃ v, Registered fn fn' v (.var x) ∧ inside v.home

/-- How the variables are when a text is left. -/
structure Ends (phis : Phis) (inside : Abs → Prop) (fn fn' : FnEmitter Op Fn) (vars : Vars Word)
    (out : Outcome Word) (vars' : Vars Word) : Prop where
  passed : ∀ words, out = .loopContinue words → Holds vars' phis.loopContinue words
  kept : ∀ x, x ∉ phis.touched out → ¬ NamedInside inside fn fn' x → vars' x = vars x

theorem NamedInside.widen {fn₀ fn fn' fn₁ : FnEmitter Op Fn} {inside wider : Abs → Prop} {x : Nat}
    (named : NamedInside inside fn fn' x) (before : Extends fn₀.emittedTerms fn.emittedTerms)
    (after : Extends fn'.emittedTerms fn₁.emittedTerms) (includes : ∀ home, inside home → wider home) :
    NamedInside wider fn₀ fn₁ x := by
  obtain ⟨v, registered, home⟩ := named
  exact ⟨v, (registered.later before).earlier after, includes _ home⟩

theorem Ends.widen {fn₀ fn fn' fn₁ : FnEmitter Op Fn} {inside wider : Abs → Prop} {phis : Phis}
    {vars vars' : Vars Word} {out : Outcome Word} (ends : Ends phis inside fn fn' vars out vars')
    (before : Extends fn₀.emittedTerms fn.emittedTerms)
    (after : Extends fn'.emittedTerms fn₁.emittedTerms) (includes : ∀ home, inside home → wider home) :
    Ends phis wider fn₀ fn₁ vars out vars' where
  passed := ends.passed
  kept x untouched unnamed :=
    ends.kept x untouched fun named => unnamed (named.widen before after includes)

/-- Leaving the block changes nothing for the variables from outside of it. -/
theorem Ends.leave {fn fn' : FnEmitter Op Fn} {inside : Abs → Prop} {phis : Phis}
    {vars vars' : Vars Word} {out : Outcome Word} (ends : Ends phis inside fn fn' vars out vars')
    (declared : phis.Declared vars) :
    Ends phis inside fn fn' vars out fun x => if (vars x).isSome then vars' x else none where
  passed words equal := by
    have held := ends.passed words equal
    rw [Holds] at held ⊢
    rw [← held]
    refine List.map_congr_left fun x member => ?_
    rw [if_pos (declared x (by simp [Phis.all, member]))]
  kept x untouched unnamed := by
    rw [ends.kept x untouched unnamed]
    cases vars x <;> rfl

/-- The way out does not depend on the selection that is under way elsewhere. -/
theorem Ends.of_inner {fn fn' : FnEmitter Op Fn} {inside : Abs → Prop} {phis : Phis} {xs : List Nat}
    {vars vars' : Vars Word} {out : Outcome Word}
    (ends : Ends { phis with selection := xs } inside fn fn' vars out vars')
    (inner : ∀ words, out ≠ .selection words) : Ends phis inside fn fn' vars out vars' where
  passed := ends.passed
  kept x untouched unnamed := by
    refine ends.kept x ?_ unnamed
    cases out with
    | selection words => exact absurd rfl (inner words)
    | returned words => exact untouched
    | loopContinue words => exact untouched
    | loopBreak words => exact untouched

variable [DecidableEq Op] [DecidableEq Word] (m : Machine Op (Effect Fn) Word Mem) (fuel : Nat)

/-- The emission of a body, and how its text answers its run. -/
structure EmitsBody (phis : Phis) (abs : Abs) (vs : List (Value Op))
    (run : Config Fn Word Mem → Option (Outcome Word × Config Fn Word Mem))
    (fn fn' : FnEmitter Op Fn) (text : CStmt Op Fn) : Prop where
  emits : Emits m fuel abs (fun place => abs <:+ place) vs fn fn'
  params : ∀ i, fn.emittedTerms (.param abs i) = none → fn'.emittedTerms (.param abs i) = none
  answers : ∀ (env : Env Word) (vars : Vars Word) (world : World (Effect Fn) Label Word Mem) out c',
    Right m fn'.emittedTerms env heldAlways (properlyAround abs) vars →
    Right m fn.emittedTerms env heldAlways (· = abs) vars → phis.Declared vars →
    run ⟨env, world⟩ = some (out, c') →
    ∃ vars', text.exec m fuel ⟨vars, world⟩ = some (out.signal, ⟨vars', c'.world⟩) ∧
      Ends phis (fun place => abs <:+ place) fn fn' vars out vars'

def BodyCorrect (body : Body Op Fn) : Prop :=
  ∀ {phis : Phis} {head abs : Abs} {fn fn' : FnEmitter Op Fn} {text : CStmt Op Fn}, fn.Wf →
    fn.Untouched abs → body.Regular abs → PhisOk phis head fn →
    emitBody phis abs body fn = some (text, fn') →
    EmitsBody m fuel phis abs body.values (body.run m true fuel head abs) fn fn' text

/-- What the part of a text that stands for a terminator does. -/
def AnswersTerminator (phis : Phis) (head abs : Abs) (t : Terminator Op Fn)
    (fn fn' : FnEmitter Op Fn) (text : List (CStmt Op Fn)) : Prop :=
  ∀ (env : Env Word) (vars : Vars Word) (world : World (Effect Fn) Label Word Mem)
      (earlier : List (Value Op)) out c',
    (∀ u ∈ subtermsOf earlier, fn.emittedTerms u ≠ none) →
    Right m fn'.emittedTerms env heldAlways (properlyAround abs) vars →
    Right m fn.emittedTerms env heldAlways (· = abs) vars → phis.Declared vars →
    t.steady m env world.mem head abs earlier = true →
    t.run m true fuel head abs ⟨env, world⟩ = some (out, c') →
    ∃ vars', (Stmt.block text).exec m fuel ⟨vars, world⟩ = some (out.signal, ⟨vars', c'.world⟩) ∧
      Ends phis (fun place => abs <:+ place) fn fn' vars out vars'

def TerminatorCorrect (t : Terminator Op Fn) : Prop :=
  ∀ {phis : Phis} {head abs : Abs} {fn fn' : FnEmitter Op Fn}, fn.Wf → fn.ClearBelow abs →
    t.Regular abs → PhisOk phis head fn → emitTerminator phis abs t fn = some fn' →
    Emits m fuel abs (fun place => abs <:+ place) t.values fn fn' ∧
      (∀ i, fn.emittedTerms (.param abs i) = none → fn'.emittedTerms (.param abs i) = none) ∧
      Prints abs fn fn' (AnswersTerminator m fuel phis head abs t fn fn')

variable {m fuel} {fn fn' fn'' : FnEmitter Op Fn} {abs here : Abs} {phis : Phis} {head : Abs}

/-! ## Keeping track -/

omit [DecidableEq Op] in
theorem Emits.param_missing {inside : Abs → Prop} {vs : List (Value Op)} {place : Abs} {i : Nat}
    (emits : Emits m fuel here inside vs fn fn') (outside : ¬ inside place)
    (missing : fn.emittedTerms (.param place i) = none) : fn'.emittedTerms (.param place i) = none := by
  cases found : fn'.emittedTerms (.param place i) with
  | none => rfl
  | some term =>
      cases emits.fresh _ term ⟨missing, found⟩ with
      | inl isInside => exact absurd isInside outside
      | inr asked => exact absurd asked.2.1 id

omit [DecidableEq Op] in
theorem Emits.phisOk {inside : Abs → Prop} {vs : List (Value Op)}
    (emits : Emits m fuel here inside vs fn fn') (ok : PhisOk phis head fn) :
    PhisOk phis head fn' where
  selection x member := emits.unused (ok.selection x member)
  selection_nodup := ok.selection_nodup
  loopBreak x member := emits.unused (ok.loopBreak x member)
  loopBreak_nodup := ok.loopBreak_nodup
  loopContinue n x atName := emits.grows _ _ (ok.loopContinue n x atName)

omit [DecidableEq Op] in
/-- What happens elsewhere leaves the inside of an abstraction clear. -/
theorem Emits.clear {inside : Abs → Prop} {vs : List (Value Op)} {place : Abs}
    (emits : Emits m fuel here inside vs fn fn') (apart : ∀ home, inside home → ¬ place <:+ home)
    (apart' : ¬ place <:+ here) (clear : fn.Clear place) : fn'.Clear place := by
  intro v term found isInside
  cases before : fn.emittedTerms v with
  | none =>
      cases emits.fresh v term ⟨before, found⟩ with
      | inl other => exact apart _ other isInside
      | inr asked => exact apart' (isInside.trans asked.2.2)
  | some old => exact clear v old before isInside

omit [DecidableEq Op] in
theorem Emits.clear_sibling {vs : List (Value Op)} {step step' : Nat}
    (emits : Emits m fuel (step :: abs) (fun place => (step :: abs) <:+ place) vs fn fn')
    (other : step ≠ step') (clear : fn.Clear (step' :: abs)) : fn'.Clear (step' :: abs) := by
  refine emits.clear (fun home inside inside' => other (step_eq_of_below inside inside')) ?_ clear
  exact fun inside => other (step_eq_of_below (List.suffix_refl _) inside)

omit [DecidableEq Op] in
theorem Emits.clear_value {vs : List (Value Op)} {step : Nat}
    (emits : Emits m fuel abs (fun _ => False) vs fn fn') (clear : fn.Clear (step :: abs)) :
    fn'.Clear (step :: abs) :=
  emits.clear (fun _ impossible => impossible.elim) not_below_self clear

omit [DecidableEq Op] in
/-- The emission of a body, seen from the abstraction around it. -/
theorem Emits.of_child {vs : List (Value Op)} {step : Nat}
    (emits : Emits m fuel (step :: abs) (fun place => (step :: abs) <:+ place) vs fn fn') :
    Emits m fuel abs (below abs) vs fn fn' where
  grows := emits.grows
  later := emits.later
  fresh v term registered := by
    cases emits.fresh v term registered with
    | inl inside => exact .inl ⟨step, inside⟩
    | inr asked =>
        obtain ⟨listed, floats, around⟩ := asked
        cases List.suffix_cons_iff.mp around with
        | inl same => exact .inl ⟨step, same ▸ List.suffix_refl _⟩
        | inr outer => exact .inr ⟨listed, floats, outer⟩
  names := emits.names
  wf := emits.wf
  hoists place outside := emits.hoists place fun inside => outside ⟨step, inside⟩

omit [DecidableEq Op] in
theorem Emits.of_value {vs : List (Value Op)}
    (emits : Emits m fuel abs (fun _ => False) vs fn fn') : Emits m fuel abs (below abs) vs fn fn' :=
  emits.mono _ _ (fun _ impossible => impossible.elim) (List.Subset.refl _)

omit [DecidableEq Op] in
theorem Emits.of_below {vs : List (Value Op)} (emits : Emits m fuel abs (below abs) vs fn fn') :
    Emits m fuel abs (fun place => abs <:+ place) vs fn fn' :=
  emits.mono _ _ (fun _ => inside_of_below) (List.Subset.refl _)

omit [DecidableEq Op] [DecidableEq Word] in
theorem not_below_abs : ¬ below abs abs := by
  rintro ⟨step, inside⟩
  exact not_below_self inside

omit [DecidableEq Op] in
/-- New names are no variables of the constructs around. -/
theorem Emits.not_named {inside : Abs → Prop} {vs : List (Value Op)}
    (emits : Emits m fuel here inside vs fn fn') {wanted : Abs → Prop} {x : Nat}
    (old : x < fn.uniqueName) : ¬ NamedInside wanted fn fn' x := by
  intro named
  obtain ⟨v, registered, -⟩ := named
  have recent := emits.names v x registered
  omega

omit [DecidableEq Op] [DecidableEq Word] in
/-- What is around an abstraction is not named below it. -/
theorem not_named_of_around {v : Value Op} {x : Nat} (wf : fn''.Wf)
    (bound : fn''.emittedTerms v = some (.var x)) (outer : v.home <:+ abs)
    (grows : Extends fn'.emittedTerms fn''.emittedTerms) : ¬ NamedInside (below abs) fn fn' x := by
  intro named
  obtain ⟨u, registered, step, inside⟩ := named
  have same := wf.distinct u v x (grows u _ registered.2) bound
  rw [same] at inside
  exact not_below_self (inside.trans outer)

omit [DecidableEq Op] [DecidableEq Word] in
theorem Clear.own {step : Nat} (clear : fn.Clear (step :: abs)) {env : Env Word} {vars : Vars Word} :
    Right m fn.emittedTerms env heldAlways (· = step :: abs) vars :=
  fun v _ bound home _ => absurd (home ▸ List.suffix_refl _) (clear v _ bound)

omit [DecidableEq Op] [DecidableEq Word] in
/-- Around a child is around the parent, or the parent itself. -/
theorem Right.for_child {terms : Value Op → Option (Expr Op)} {env : Env Word} {vars : Vars Word}
    {step : Nat} (right : Right m fn''.emittedTerms env heldAlways (Backend.around abs) vars)
    (grows : Extends terms fn''.emittedTerms) :
    Right m terms env heldAlways (properlyAround (step :: abs)) vars := by
  refine right.mono grows (fun _ _ h => h) ?_
  intro home proper
  exact (List.suffix_cons_iff.mp proper.1).resolve_left proper.2

end Bodies

end Shady.Backend
