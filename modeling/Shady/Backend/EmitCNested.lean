import Shady.Backend.EmitCLeaves

/-!
# Constructs and their tails

A construct is printed after its bodies, between what was hoisted and the text of its
tail. Where the construct is left by a selection the tail goes on; every other way out
leaves the tail as well.
-/

set_option autoImplicit false

namespace Shady.Backend

open Imperative

section Nested
variable {Op Fn Word Mem : Type} [DecidableEq Op] [DecidableEq Word]
variable {m : Machine Op (Effect Fn) Word Mem} {fuel : Nat}
variable {fn fn' e last : FnEmitter Op Fn} {abs here head : Abs} {phis : Phis}

/-! ## Printing the construct and the tail -/

omit [DecidableEq Word] in
theorem registerParams_extends (place : Abs) : ∀ (xs : List Nat) (i : Nat) {fn : FnEmitter Op Fn},
    (∀ j, i ≤ j → fn.emittedTerms (.param place j) = none) →
    Extends fn.emittedTerms (FnEmitter.registerParams place i xs fn).emittedTerms
  | [], _, _, _ => fun _ _ found => found
  | x :: xs, i, fn, missing => by
      have once : Extends fn.emittedTerms (fn.registerEmitted (.param place i) (.var x)).emittedTerms :=
        extends_update (missing i le_rfl)
      refine once.trans (registerParams_extends place xs (i + 1) fun j after => ?_)
      refine (registerEmitted_of_ne ?_).trans (missing j (by omega))
      intro equal
      cases equal
      omega

/-- What is known when the construct has been printed, and its tail after it. -/
structure Closes (m : Machine Op (Effect Fn) Word Mem) (fuel : Nat) (abs : Abs) (xs : List Nat)
    (vs : List (Value Op)) (construct tail : CStmt Op Fn) (fn e last : FnEmitter Op Fn) : Prop where
  emits : Emits m fuel abs (fun place => abs <:+ place) vs fn last
  grows : Extends e.emittedTerms last.emittedTerms
  prints : Prints abs e last (· = [construct, tail])
  params : ∀ i, e.emittedTerms (.param abs i) = none → last.emittedTerms (.param abs i) = none
  named : ∀ x ∈ xs, ∃ i, last.emittedTerms (.param (2 :: abs) i) = some (.var x)

theorem Emits.closes {vs : List (Value Op)} {xs : List Nat} {construct tail : CStmt Op Fn}
    {printed : FnEmitter Op Fn} (emits : Emits m fuel abs (fun place => abs <:+ place) vs fn e)
    (missing : ∀ j, e.emittedTerms (.param (2 :: abs) j) = none)
    (unused : ∀ x ∈ xs, e.Unused x ∧ fn.uniqueName ≤ x) (nodup : xs.Nodup)
    (wasPrinted : e.print abs construct = some printed)
    (closed : (FnEmitter.registerParams (2 :: abs) 0 xs printed).print abs tail = some last) :
    Closes m fuel abs xs vs construct tail fn e last := by
  obtain ⟨terms, names, -, prints⟩ := print_eq_some wasPrinted
  obtain ⟨termsLast, -, -, printsTail⟩ := print_eq_some closed
  have rest := registerParams_rest (2 :: abs) xs 0 printed
  have missing' : ∀ j, 0 ≤ j → printed.emittedTerms (.param (2 :: abs) j) = none := by
    intro j _
    rw [terms]
    exact missing j
  have unused' : ∀ x ∈ xs, printed.Unused x ∧ fn.uniqueName ≤ x := by
    intro x member
    rw [FnEmitter.Unused, terms, names]
    exact unused x member
  have emits' := Emits.registerParams (List.suffix_cons 2 abs) xs 0
    (emits.print (List.suffix_refl abs) wasPrinted) missing' unused' nodup
  refine ⟨emits'.print (List.suffix_refl abs) closed, ?_, ?_, ?_, ?_⟩
  · rw [termsLast, ← terms]
    exact registerParams_extends (2 :: abs) xs 0 missing'
  · intro before isOpen
    obtain ⟨text, isOpen', rfl⟩ := prints before isOpen
    obtain ⟨text', isOpen'', rfl⟩ := printsTail _ (rest.1 ▸ isOpen')
    exact ⟨[construct, tail], by rw [isOpen'', List.append_assoc]; rfl, rfl⟩
  · intro i absent
    cases found : last.emittedTerms (.param abs i) with
    | none => rfl
    | some term =>
        rw [termsLast] at found
        cases registerParams_cases (2 :: abs) xs 0 printed found with
        | inl before =>
            rw [terms, absent] at before
            cases before
        | inr param =>
            obtain ⟨n, x, same, -, -⟩ := param
            have longer := congrArg List.length (Value.param.inj same).1
            simp at longer
  · intro x member
    obtain ⟨n, atName⟩ := List.mem_iff_getElem?.mp member
    refine ⟨0 + n, ?_⟩
    rw [termsLast]
    exact registerParams_found (2 :: abs) xs 0 printed atName

/-! ## Answers below an abstraction -/

/-- The text answers the run, and touches no variable but those of the ways out and those
    of values below the abstraction. -/
def Answered (m : Machine Op (Effect Fn) Word Mem) (fuel : Nat) (phis : Phis) (abs : Abs)
    (fn e : FnEmitter Op Fn) (env : Env Word) (vars : Vars Word)
    (world : World (Effect Fn) Label Word Mem)
    (run : Config Fn Word Mem → Option (Outcome Word × Config Fn Word Mem)) (text : CStmt Op Fn) :
    Prop :=
  ∀ out c', run ⟨env, world⟩ = some (out, c') →
    ∃ vars', text.exec m fuel ⟨vars, world⟩ = some (out.signal, ⟨vars', c'.world⟩) ∧
      Ends phis (below abs) fn e vars out vars'

variable {env : Env Word} {vars : Vars Word} {world : World (Effect Fn) Label Word Mem}

omit [DecidableEq Op] in
theorem EmitsBody.answered {vs : List (Value Op)} {step : Nat} {b b' : FnEmitter Op Fn}
    {run : Config Fn Word Mem → Option (Outcome Word × Config Fn Word Mem)} {text : CStmt Op Fn}
    (body : EmitsBody m fuel phis (step :: abs) vs run b b' text) (clear : b.Clear (step :: abs))
    (before : Extends fn.emittedTerms b.emittedTerms) (after : Extends b'.emittedTerms e.emittedTerms)
    (right : Right m e.emittedTerms env heldAlways (around abs) vars) (declared : phis.Declared vars) :
    Answered m fuel phis abs fn e env vars world run text := by
  intro out c' ran
  obtain ⟨vars', exec, ends⟩ := body.answers env vars world out c' (right.for_child after)
    (Clear.own clear) declared ran
  exact ⟨vars', exec, ends.widen before after fun _ => below_of_inside⟩

omit [DecidableEq Op] in
/-- One of two branches is taken, and left as its block is. -/
theorem Answered.ifElse {condition : Cond Op} {truth : Bool} {yes no : CStmt Op Fn}
    {runYes runNo : Config Fn Word Mem → Option (Outcome Word × Config Fn Word Mem)}
    (reads : condition.eval m vars world.mem = some truth)
    (ofYes : Answered m fuel phis abs fn e env vars world runYes yes)
    (ofNo : Answered m fuel phis abs fn e env vars world runNo no) (declared : phis.Declared vars) :
    Answered m fuel phis abs fn e env vars world (fun c => if truth = true then runYes c else runNo c)
      (.ifElse condition yes no) := by
  intro out c' ran
  rw [Stmt.exec, reads, Option.bind_some]
  cases truth with
  | true =>
      obtain ⟨vars', exec, ends⟩ := ofYes out c' ran
      refine ⟨_, ?_, ends.leave declared⟩
      rw [if_pos rfl, exec]
      rfl
  | false =>
      obtain ⟨vars', exec, ends⟩ := ofNo out c' ran
      refine ⟨_, ?_, ends.leave declared⟩
      rw [if_neg Bool.false_ne_true, exec]
      rfl

/-! ## The tail -/

/-- What the tail of a construct needs. -/
structure TailOk (m : Machine Op (Effect Fn) Word Mem) (fuel : Nat) (phis : Phis) (abs : Abs)
    (xs : List Nat) (tailRun : Config Fn Word Mem → Option (Outcome Word × Config Fn Word Mem))
    (tail : CStmt Op Fn) (fn e last : FnEmitter Op Fn) : Prop where
  wf : e.Wf
  grows : Extends e.emittedTerms last.emittedTerms
  body : ∃ vs b b', EmitsBody m fuel phis (2 :: abs) vs tailRun b b' tail ∧ b.Clear (2 :: abs) ∧
    Extends fn.emittedTerms b.emittedTerms ∧ Extends b'.emittedTerms e.emittedTerms
  free : ∀ x ∈ xs, ∀ v, e.emittedTerms v ≠ some (.var x)
  named : ∀ x ∈ xs, NamedInside (fun place => abs <:+ place) fn last x
  apart : ∀ x ∈ xs, x ∉ phis.all
  old : ∀ x ∈ phis.all, ¬ NamedInside (below abs) fn e x

/-- The environment after a construct agrees with the one before about what is around. -/
theorem not_below_of_around {home place : Abs} (outer : home <:+ abs) (inner : place <:+ home) :
    ¬ below abs place := by
  intro isBelow
  obtain ⟨step, inside⟩ := isBelow
  exact not_below_self ((inside.trans inner).trans outer)

omit [DecidableEq Op] in
/-- After the construct was left, its tail is answered, or skipped. -/
theorem TailOk.answers {xs : List Nat} {construct tail : CStmt Op Fn}
    {tailRun : Config Fn Word Mem → Option (Outcome Word × Config Fn Word Mem)}
    (ok : TailOk m fuel phis abs xs tailRun tail fn e last)
    (right : Right m e.emittedTerms env heldAlways (around abs) vars) (declared : phis.Declared vars)
    {out₁ out : Outcome Word} {c₁ c' : Config Fn Word Mem} {vars₁ : Vars Word}
    (agrees : ∀ place, ¬ below abs place → env.AgreesAt c₁.env place)
    (exec : construct.exec m fuel ⟨vars, world⟩ = some (out₁.signal, ⟨vars₁, c₁.world⟩))
    (ends : Ends { phis with selection := xs } (below abs) fn e vars out₁ vars₁)
    (ran : afterSelection tailRun abs (out₁, c₁) = some (out, c')) :
    ∃ vars₂, (Stmt.block [construct, tail]).exec m fuel ⟨vars, world⟩
        = some (out.signal, ⟨vars₂, c'.world⟩) ∧
      Ends phis (fun place => abs <:+ place) fn last vars out vars₂ := by
  have refl : Extends fn.emittedTerms fn.emittedTerms := fun _ _ found => found
  have skips : (∀ words, out₁ ≠ .selection words) → out₁.signal ≠ .normal → (out₁, c₁) = (out, c') →
      ∃ vars₂, (Stmt.block [construct, tail]).exec m fuel ⟨vars, world⟩
          = some (out.signal, ⟨vars₂, c'.world⟩) ∧
        Ends phis (fun place => abs <:+ place) fn last vars out vars₂ := by
    intro inner leaves same
    cases same
    refine ⟨vars₁, ?_, (ends.of_inner inner).widen refl ok.grows fun _ => inside_of_below⟩
    change andThen (construct.exec m fuel ⟨vars, world⟩) _ = _
    rw [exec]
    cases out₁ with
    | selection words => exact absurd rfl (inner words)
    | returned words => rfl
    | loopContinue words => rfl
    | loopBreak words => rfl
  cases out₁ with
  | returned words => exact skips nofun nofun (Option.some.inj ran)
  | loopContinue words => exact skips nofun nofun (Option.some.inj ran)
  | loopBreak words => exact skips nofun nofun (Option.some.inj ran)
  | selection words =>
      obtain ⟨vs, b, b', body, clear, before, after⟩ := ok.body
      have kept : ∀ x, x ∉ xs → ¬ NamedInside (below abs) fn e x → vars₁ x = vars x :=
        fun x other unnamed => ends.kept x other unnamed
      have right₁ : Right m e.emittedTerms (c₁.env.setParams (2 :: abs) words) heldAlways
          (around abs) vars₁ := by
        have sameEnv : Right m e.emittedTerms env heldAlways (around abs) vars₁ := by
          intro v x bound home holds
          obtain ⟨word, value, stored⟩ := right v x bound home holds
          refine ⟨word, value, ?_⟩
          rw [kept x (fun member => ok.free x member v bound)
            (not_named_of_around ok.wf bound home fun _ _ found => found)]
          exact stored
        refine sameEnv.congr _ ok.wf fun place home outer inner => ?_
        have outside := not_below_of_around outer inner
        exact (agrees place outside).trans (Env.agreesAt_setParams (ne_of_not_below outside))
      have declared₁ : phis.Declared vars₁ := declared.of_kept fun x member =>
        kept x (fun inXs => ok.apart x inXs member) (ok.old x member)
      obtain ⟨vars₂, execTail, endsTail⟩ := body.answers (c₁.env.setParams (2 :: abs) words) vars₁
        c₁.world out c' (right₁.for_child after) (Clear.own clear) declared₁ ran
      have widened := endsTail.widen before (after.trans ok.grows)
        fun _ inside => (List.suffix_cons 2 abs).trans inside
      refine ⟨vars₂, ?_, widened.passed, fun x untouched unnamed => ?_⟩
      · change andThen (construct.exec m fuel ⟨vars, world⟩) _ = _
        rw [exec]
        exact (exec_singleton m fuel tail _).trans execTail
      · rw [widened.kept x untouched unnamed]
        refine kept x (fun member => unnamed (ok.named x member)) fun named => unnamed ?_
        exact named.widen refl ok.grows fun _ => inside_of_below

/-- Once what was hoisted ran, the construct is left as the run of its bodies is. -/
def ConstructAnswers (m : Machine Op (Effect Fn) Word Mem) (fuel : Nat) (phis : Phis) (abs : Abs)
    (xs : List Nat) (fn d e : FnEmitter Op Fn) (env : Env Word) (vars : Vars Word)
    (world : World (Effect Fn) Label Word Mem) (first : Option (Outcome Word × Config Fn Word Mem))
    (construct : CStmt Op Fn) : Prop :=
  ∀ vars', Right m e.emittedTerms env heldAlways (around abs) vars' →
    Phis.Declared { phis with selection := xs } vars' → phis.Declared vars' →
    (∀ x, x < d.uniqueName → vars' x = vars x) →
    ∀ out₁ c₁, first = some (out₁, c₁) →
      (∀ place, ¬ below abs place → env.AgreesAt c₁.env place) ∧
      ∃ vars₁, construct.exec m fuel ⟨vars', world⟩ = some (out₁.signal, ⟨vars₁, c₁.world⟩) ∧
        Ends { phis with selection := xs } (below abs) fn e vars' out₁ vars₁

/-- What was hoisted runs first, and then the construct with its tail. -/
theorem TailOk.hoisted {xs : List Nat} {vs : List (Value Op)} {construct tail : CStmt Op Fn}
    {d : FnEmitter Op Fn} {tailRun : Config Fn Word Mem → Option (Outcome Word × Config Fn Word Mem)}
    (ok : TailOk m fuel phis abs xs tailRun tail fn e last)
    (entered : Extends fn.emittedTerms d.emittedTerms)
    (emits : Emits m fuel abs (below abs) vs d e) (prints : Prints abs e last (· = [construct, tail]))
    (lower : fn.uniqueName ≤ d.uniqueName) (older : ∀ x ∈ phis.all, x < fn.uniqueName) :
    Prints abs d last fun text =>
      ∀ (env : Env Word) (vars : Vars Word) (world : World (Effect Fn) Label Word Mem)
          (earlier now direct : List (Value Op)) (first : Option (Outcome Word × Config Fn Word Mem))
          (out : Outcome Word) (c' : Config Fn Word Mem),
        (∀ u ∈ subtermsOf earlier, d.emittedTerms u ≠ none) →
        Right m last.emittedTerms env heldAlways (properlyAround abs) vars →
        Right m d.emittedTerms env heldAlways (· = abs) vars → phis.Declared vars →
        (∀ x ∈ xs, (vars x).isSome = true) →
        steadyAt m heldAlways env world.mem abs earlier now direct = true → vs ⊆ now →
        ConstructAnswers m fuel phis abs xs fn d e env vars world first construct →
        first.bind (afterSelection tailRun abs) = some (out, c') →
        ∃ vars', (Stmt.block text).exec m fuel ⟨vars, world⟩ = some (out.signal, ⟨vars', c'.world⟩) ∧
          Ends phis (fun place => abs <:+ place) fn last vars out vars' := by
  intro printed isOpen
  obtain ⟨hoists, isOpen', settles⟩ := emits.hoists abs not_below_abs printed isOpen
  obtain ⟨text, isOpen'', rfl⟩ := prints _ isOpen'
  refine ⟨hoists ++ [construct, tail], by rw [isOpen'', List.append_assoc], ?_⟩
  intro env vars world earlier now direct first out c' known outer own declared isDeclared steady needed
    answered ran
  have outerE : Right m e.emittedTerms env heldAlways (properlyAround abs) vars :=
    outer.mono ok.grows (fun _ _ h => h) (fun _ h => h)
  obtain ⟨vars', ranHoists, own', only⟩ := settles env heldAlways vars world outerE own
    fun v term registered home => emits.computable not_below_abs steady needed known registered home
  have right := (outerE.after emits.wf (fun _ _ found => found) not_properlyAround_self only).around own'
  have unchanged : ∀ x, x < d.uniqueName → vars' x = vars x := by
    intro x isOld
    refine only x fun v registered => absurd (emits.names v x registered) ?_
    omega
  have declared' : phis.Declared vars' := declared.of_kept fun x member =>
    unchanged x (lt_of_lt_of_le (older x member) lower)
  have declaredXs : Phis.Declared { phis with selection := xs } vars' := by
    intro x member
    simp only [Phis.all, List.mem_append] at member
    rcases member with (inXs | inContinue) | inBreak
    · rw [only x fun v registered => absurd registered.2 (ok.free x inXs v)]
      exact isDeclared x inXs
    · exact declared' x (by simp [Phis.all, inContinue])
    · exact declared' x (by simp [Phis.all, inBreak])
  obtain ⟨⟨out₁, c₁⟩, ranFirst, ranTail⟩ := Option.bind_eq_some_iff.mp ran
  obtain ⟨agrees, vars₁, exec, ends⟩ :=
    answered vars' right declaredXs declared' unchanged out₁ c₁ ranFirst
  obtain ⟨vars₂, execBoth, endsBoth⟩ := ok.answers right declared' agrees exec ends ranTail
  refine ⟨vars₂, ?_, endsBoth.passed, fun x untouched unnamed => ?_⟩
  · rw [exec_append_normal m fuel ranHoists]
    exact execBoth
  · rw [endsBoth.kept x untouched unnamed]
    refine only x fun v registered home => unnamed ⟨v, ?_, ?_⟩
    · exact (registered.later entered).earlier ok.grows
    · exact home ▸ List.suffix_refl abs

end Nested

end Shady.Backend
