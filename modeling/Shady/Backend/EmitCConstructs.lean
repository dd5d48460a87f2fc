import Shady.Backend.EmitCTransfers

/-!
# Emission of constructs

The text of a construct is compared with its run: which outcome answers which way of
leaving the text, and which variables have changed then.
-/

set_option autoImplicit false

namespace Shady.Backend

open Imperative

/-! ## Regular bodies -/

section Regularity
variable {Op Fn : Type}

mutual
/-- All operands are around their abstraction, and each Match has a case. -/
def Body.Regular (abs : Abs) : Body Op Fn → Prop
  | .mk instrs terminator =>
      (∀ instr ∈ instrs, ∀ place ∈ instr.operands.places, place <:+ abs) ∧ terminator.Regular abs
def Terminator.Regular (abs : Abs) : Terminator Op Fn → Prop
  | .ret args => ∀ place ∈ args.places, place <:+ abs
  | .unreachable => True
  | .ifThen _ condition ifTrue ifFalse tail =>
      condition.Within abs ∧ ifTrue.Regular (0 :: abs) ∧ ifFalse.Regular (1 :: abs) ∧
        tail.Regular (2 :: abs)
  | .matchOn _ inspect cases defaultCase tail =>
      inspect.Within abs ∧ cases.Regular abs 3 ∧ cases ≠ .nil ∧ defaultCase.Regular (0 :: abs) ∧
        tail.Regular (2 :: abs)
  | .loop initialArgs _ body tail =>
      (∀ place ∈ initialArgs.places, place <:+ abs) ∧ body.Regular (0 :: abs) ∧
        tail.Regular (2 :: abs)
  | .mergeSelection args => ∀ place ∈ args.places, place <:+ abs
  | .mergeContinue args => ∀ place ∈ args.places, place <:+ abs
  | .mergeBreak args => ∀ place ∈ args.places, place <:+ abs
def Alternative.Regular (abs : Abs) : Alternative Op Fn → Prop
  | .absent => True
  | .present body => body.Regular abs
def Cases.Regular (abs : Abs) (step : Nat) : Cases Op Fn → Prop
  | .nil => True
  | .cons _ body rest => body.Regular (step :: abs) ∧ rest.Regular abs (step + 1)
end

end Regularity

/-! ## What a run leaves alone -/

section Frames
variable {Op Fn Word Mem : Type} [DecidableEq Op] [DecidableEq Word]
variable (m : Machine Op (Effect Fn) Word Mem) (strict : Bool) (fuel : Nat)

/-- A run changes the environment at the places of a kind only. -/
def Stays (inside : Abs → Prop) (c : Config Fn Word Mem)
    (run : Config Fn Word Mem → Option (Outcome Word × Config Fn Word Mem)) : Prop :=
  ∀ out c', run c = some (out, c') → ∀ place, ¬ inside place → c.env.AgreesAt c'.env place

def below (abs : Abs) : Abs → Prop := fun place => ∃ step, (step :: abs) <:+ place

omit [DecidableEq Op] [DecidableEq Word] in
theorem Env.AgreesAt.trans {first second third : Env Word} {place : Abs}
    (before : first.AgreesAt second place) (after : second.AgreesAt third place) :
    first.AgreesAt third place :=
  ⟨after.1.trans before.1, after.2.trans before.2⟩

omit [DecidableEq Op] [DecidableEq Word] in
theorem Env.agreesAt_setParams {env : Env Word} {abs place : Abs} {words : List Word}
    (other : place ≠ abs) : env.AgreesAt (env.setParams abs words) place :=
  ⟨Function.update_of_ne other _ _, rfl⟩

theorem below_of_inside {abs place : Abs} {step : Nat} (inside : (step :: abs) <:+ place) :
    below abs place := ⟨step, inside⟩

theorem ne_of_not_below {abs place : Abs} {step : Nat} (outside : ¬ below abs place) :
    place ≠ step :: abs := fun same => outside ⟨step, same ▸ List.suffix_refl _⟩

theorem inside_of_below {abs place : Abs} (inside : below abs place) : abs <:+ place := by
  obtain ⟨step, inside⟩ := inside
  exact (List.suffix_cons step abs).trans inside

omit [DecidableEq Op] [DecidableEq Word] in
theorem runInstr_agrees {abs : Abs} {instr : Instr Op Fn} {c c' : Config Fn Word Mem}
    (ran : runInstr m abs instr c = some c') {place : Abs} (other : place ≠ abs) :
    c.env.AgreesAt c'.env place := by
  have ofEffect : ∀ {kind : Effect Fn} {operands : Operands Op},
      runEffect m abs kind operands c = some c' → c.env.AgreesAt c'.env place := by
    intro kind operands effect
    obtain ⟨words, -, -, env⟩ := runEffect_eq_some effect
    rw [env]
    exact Env.agreesAt_push other
  cases instr with
  | load ptr =>
      rw [runInstr, Option.map_eq_some_iff] at ran
      obtain ⟨address, -, rfl⟩ := ran
      exact Env.agreesAt_push other
  | store ptr value => exact ofEffect ran
  | call callee args returns =>
      cases callee with
      | fnAddr callee => exact ofEffect ran
      | value callee => exact ofEffect ran
  | copyBytes dst src count => exact ofEffect ran
  | fillBytes dst src count => exact ofEffect ran
  | localAlloc =>
      have allocated : runEffect m abs .localAlloc .nil c = some c' := ran
      exact ofEffect allocated

theorem runInstrs_agrees {abs : Abs} (instrs : List (Instr Op Fn)) :
    ∀ {earlier : List (Value Op)} {c c' : Config Fn Word Mem},
      runInstrs m strict abs earlier instrs c = some c' → ∀ place, place ≠ abs →
        c.env.AgreesAt c'.env place := by
  induction instrs with
  | nil =>
      intro earlier c c' ran place other
      cases ran
      exact ⟨rfl, rfl⟩
  | cons instr rest ih =>
      intro earlier c c' ran place other
      simp only [runInstrs, Option.bind_eq_some_iff] at ran
      obtain ⟨-, -, next, ofFirst, ofRest⟩ := ran
      exact (runInstr_agrees m ofFirst other).trans (ih ofRest place other)

omit [DecidableEq Op] [DecidableEq Word] in
theorem stays_afterSelection {abs : Abs} {c : Config Fn Word Mem}
    {first : Option (Outcome Word × Config Fn Word Mem)}
    {tail : Config Fn Word Mem → Option (Outcome Word × Config Fn Word Mem)}
    (ofFirst : ∀ out c', first = some (out, c') → ∀ place, ¬ below abs place →
      c.env.AgreesAt c'.env place)
    (ofTail : ∀ c', Stays (fun place => (2 :: abs) <:+ place) c' tail) {out : Outcome Word}
    {c' : Config Fn Word Mem} (ran : first.bind (afterSelection tail abs) = some (out, c'))
    {place : Abs} (outside : ¬ below abs place) : c.env.AgreesAt c'.env place := by
  rw [Option.bind_eq_some_iff] at ran
  obtain ⟨⟨between, c₁⟩, ranFirst, ranTail⟩ := ran
  have before := ofFirst between c₁ ranFirst place outside
  cases between with
  | selection words =>
      refine (before.trans (Env.agreesAt_setParams (ne_of_not_below outside))).trans
        (ofTail _ out c' ranTail place fun inside => outside ⟨2, inside⟩)
  | returned words => cases ranTail; exact before
  | loopContinue words => cases ranTail; exact before
  | loopBreak words => cases ranTail; exact before

mutual
theorem Body.run_stays : ∀ (body : Body Op Fn) (head abs : Abs) (c : Config Fn Word Mem),
    Stays (fun place => abs <:+ place) c (body.run m strict fuel head abs)
  | .mk instrs terminator, head, abs, c => by
      intro out c' ran place outside
      simp only [Body.run, Option.bind_eq_some_iff] at ran
      obtain ⟨between, ofChain, -, -, ofTerminator⟩ := ran
      have other : place ≠ abs := fun same => outside (same ▸ List.suffix_refl abs)
      have entered : c.env.AgreesAt (c.enter abs).env place := ⟨rfl, Function.update_of_ne other _ _⟩
      exact (entered.trans (runInstrs_agrees m strict instrs ofChain place other)).trans
        (Terminator.run_stays terminator head abs between out c' ofTerminator place
          fun inside => outside (inside_of_below inside))
theorem Terminator.run_stays : ∀ (t : Terminator Op Fn) (head abs : Abs) (c : Config Fn Word Mem),
    Stays (below abs) c (t.run m strict fuel head abs)
  | .ret args, head, abs, c => by
      intro out c' ran place outside
      rw [Terminator.run, Option.map_eq_some_iff] at ran
      obtain ⟨words, -, equal⟩ := ran
      cases equal
      exact ⟨rfl, rfl⟩
  | .unreachable, _, _, _ => fun _ _ ran => nomatch ran
  | .ifThen yields condition ifTrue ifFalse tail, head, abs, c => by
      intro out c' ran place outside
      rw [Terminator.run, Option.bind_eq_some_iff] at ran
      obtain ⟨word, -, ran⟩ := ran
      refine stays_afterSelection ?_ (fun c₁ => Body.run_stays tail head (2 :: abs) c₁) ran outside
      intro out₁ c₁ ran₁ place₁ outside₁
      split at ran₁
      case isTrue =>
        exact Body.run_stays ifTrue head (0 :: abs) c out₁ c₁ ran₁ place₁
          fun inside => outside₁ ⟨0, inside⟩
      case isFalse =>
        exact Alternative.run_stays ifFalse head (1 :: abs) c out₁ c₁ ran₁ place₁
          fun inside => outside₁ ⟨1, inside⟩
  | .matchOn yields inspect cases defaultCase tail, head, abs, c => by
      intro out c' ran place outside
      rw [Terminator.run, Option.bind_eq_some_iff] at ran
      obtain ⟨word, -, ran⟩ := ran
      refine stays_afterSelection ?_ (fun c₁ => Body.run_stays tail head (2 :: abs) c₁) ran outside
      intro out₁ c₁ ran₁ place₁ outside₁
      refine Cases.run_stays cases head abs word 3 _ c ?_ out₁ c₁ ran₁ place₁ outside₁
      intro out₂ c₂ ran₂ place₂ outside₂
      exact Body.run_stays defaultCase head (0 :: abs) c out₂ c₂ ran₂ place₂
        fun inside => outside₂ ⟨0, inside⟩
  | .loop initialArgs yields body tail, head, abs, c => by
      intro out c' ran place outside
      simp only [Terminator.run, Option.bind_eq_some_iff] at ran
      obtain ⟨words, -, ⟨between, c₁⟩, ranLoop, ranTail⟩ := ran
      have ofTurn : ∀ turn : List Word × Config Fn Word Mem, ∀ out₁ c₁,
          body.run m strict fuel (0 :: abs) (0 :: abs) (turn.2.bindParams (0 :: abs) turn.1)
            = some (out₁, c₁) → turn.2.env.AgreesAt c₁.env place := by
        intro turn out₁ c₁ ran₁
        have bound : turn.2.env.AgreesAt (turn.2.bindParams (0 :: abs) turn.1).env place :=
          Env.agreesAt_setParams (ne_of_not_below outside)
        exact bound.trans (Body.run_stays body (0 :: abs) (0 :: abs) _ out₁ c₁ ran₁ place
          fun inside => outside ⟨0, inside⟩)
      have before : c.env.AgreesAt c₁.env place := by
        refine loopWhile_invariant
          (fun turn : List Word × Config Fn Word Mem => c.env.AgreesAt turn.2.env place)
          (fun r : Outcome Word × Config Fn Word Mem => c.env.AgreesAt r.2.env place) ?_ ?_
          (s := (words, c)) ⟨rfl, rfl⟩ ranLoop
        · intro turn kept next ranTurn
          rw [loopTurn, Option.bind_eq_some_iff] at ranTurn
          obtain ⟨⟨out₂, c₂⟩, ranBody, next'⟩ := ranTurn
          cases out₂ with
          | loopContinue words =>
              cases next'
              exact kept.trans (ofTurn turn _ _ ranBody)
          | selection words => cases strict <;> cases next'
          | returned words => cases next'
          | loopBreak words => cases next'
        · intro turn kept result ranTurn
          rw [loopTurn, Option.bind_eq_some_iff] at ranTurn
          obtain ⟨⟨out₂, c₂⟩, ranBody, next'⟩ := ranTurn
          have keptOn := kept.trans (ofTurn turn _ _ ranBody)
          cases out₂ with
          | loopContinue words => cases next'
          | selection words =>
              cases strict with
              | true => cases next'
              | false => cases next'; exact keptOn
          | returned words => cases next'; exact keptOn
          | loopBreak words => cases next'; exact keptOn
      cases between with
      | loopBreak words =>
          exact (before.trans (Env.agreesAt_setParams (ne_of_not_below outside))).trans
            (Body.run_stays tail head (2 :: abs) _ out c' ranTail place
              fun inside => outside ⟨2, inside⟩)
      | returned words => cases ranTail; exact before
      | loopContinue words => cases ranTail; exact before
      | selection words => cases ranTail; exact before
  | .mergeSelection args, head, abs, c => by
      intro out c' ran place outside
      rw [Terminator.run, Option.map_eq_some_iff] at ran
      obtain ⟨words, -, equal⟩ := ran
      cases equal
      exact ⟨rfl, rfl⟩
  | .mergeContinue args, head, abs, c => by
      intro out c' ran place outside
      rw [Terminator.run, Option.map_eq_some_iff] at ran
      obtain ⟨words, -, equal⟩ := ran
      cases equal
      exact ⟨rfl, rfl⟩
  | .mergeBreak args, head, abs, c => by
      intro out c' ran place outside
      rw [Terminator.run, Option.map_eq_some_iff] at ran
      obtain ⟨words, -, equal⟩ := ran
      cases equal
      exact ⟨rfl, rfl⟩
theorem Alternative.run_stays : ∀ (alternative : Alternative Op Fn) (head abs : Abs)
    (c : Config Fn Word Mem),
    Stays (fun place => abs <:+ place) c (alternative.run m strict fuel head abs)
  | .absent, _, _, _ => by
      intro out c' ran place outside
      cases ran
      exact ⟨rfl, rfl⟩
  | .present body, head, abs, c => Body.run_stays body head abs c
theorem Cases.run_stays : ∀ (cases : Cases Op Fn) (head abs : Abs) (word : Word) (step : Nat)
    (defaultCase : Config Fn Word Mem → Option (Outcome Word × Config Fn Word Mem))
    (c : Config Fn Word Mem), Stays (below abs) c defaultCase →
    Stays (below abs) c (cases.run m strict fuel head abs word step defaultCase)
  | .nil, _, _, _, _, _, _, ofDefault => ofDefault
  | .cons literal body rest, head, abs, word, step, defaultCase, c, ofDefault => by
      intro out c' ran place outside
      rw [Cases.run] at ran
      split at ran
      case isTrue =>
        exact Body.run_stays body head (step :: abs) c out c' ran place
          fun inside => outside ⟨step, inside⟩
      case isFalse =>
        exact Cases.run_stays rest head abs word (step + 1) defaultCase c ofDefault
          out c' ran place outside
end

end Frames

end Shady.Backend
