import Shady.Backend.EmitCLoops

/-!
# The C text answers strict runs

Whatever a function does in a strict run, the program that is emitted for it does too: the
same effects with the same operands in the same order, the same bodies and merges with the
same words, and the same result.
-/

set_option autoImplicit false

namespace Shady.Backend

open Imperative

section Correct
variable {Op Fn Word Mem : Type} [DecidableEq Op] [DecidableEq Word]
variable {m : Machine Op (Effect Fn) Word Mem} {fuel : Nat}

mutual
theorem Body.correct : ∀ body : Body Op Fn, BodyCorrect m fuel body
  | .mk _ terminator => Terminator.body_correct (Terminator.correct terminator)
theorem Terminator.correct : ∀ t : Terminator Op Fn, TerminatorCorrect m fuel t
  | .ret args => Terminator.ret_correct args
  | .unreachable => Terminator.unreachable_correct
  | .ifThen _ _ ifTrue ifFalse tail =>
      Terminator.ifThen_correct (Body.correct ifTrue) (Alternative.correct ifFalse) (Body.correct tail)
  | .matchOn _ _ cases defaultCase tail =>
      Terminator.matchOn_correct (Cases.correct cases) (Body.correct defaultCase) (Body.correct tail)
  | .loop _ _ body tail => Terminator.loop_correct (Body.correct body) (Body.correct tail)
  | .mergeSelection args => Terminator.mergeSelection_correct args
  | .mergeContinue args => Terminator.mergeContinue_correct args
  | .mergeBreak args => Terminator.mergeBreak_correct args
theorem Alternative.correct : ∀ alternative : Alternative Op Fn, AlternativeCorrect m fuel alternative
  | .absent => Alternative.absent_correct
  | .present body => Body.correct body
theorem Cases.correct : ∀ cases : Cases Op Fn, CasesCorrect m fuel cases
  | .nil => Cases.nil_correct
  | .cons _ body rest => Cases.cons_correct (Body.correct body) (Cases.correct rest)
end

/-! ## The start of a function -/

theorem start_emits (params : Nat) :
    Emits m fuel [] (fun place => [] <:+ place) []
      (⟨fun _ => none, fun _ => none, 0⟩ : FnEmitter Op Fn) (FnEmitter.start params) := by
  have wf : ∀ names, (⟨fun _ => none, fun _ => none, names⟩ : FnEmitter Op Fn).Wf := fun names =>
    ⟨nofun, nofun, nofun, nofun⟩
  have named : Emits m fuel [] (fun place => [] <:+ place) []
      (⟨fun _ => none, fun _ => none, 0⟩ : FnEmitter Op Fn) ⟨fun _ => none, fun _ => none, params⟩ := by
    refine ⟨fun _ _ found => found, Nat.zero_le _, ?_, ?_, wf params, ?_⟩
    · exact fun v term registered => absurd registered not_registered_self
    · exact fun v x registered => absurd registered not_registered_self
    · exact fun abs outside => absurd List.nil_suffix outside
  refine named.registerParams List.nil_suffix (List.range params) 0 (fun _ _ => rfl) ?_ List.nodup_range
  intro x member
  exact ⟨⟨List.mem_range.mp member, nofun⟩, Nat.zero_le x⟩

omit [DecidableEq Word] in
theorem start_registered {params : Nat} {v : Value Op} {term : Expr Op}
    (found : (FnEmitter.start params : FnEmitter Op Fn).emittedTerms v = some term) :
    ∃ n, v = .param [] n ∧ n < params ∧ term = .var n := by
  cases registerParams_cases [] (List.range params) 0 _ found with
  | inl impossible => cases impossible
  | inr param =>
      obtain ⟨n, x, same, atName, spelled⟩ := param
      obtain ⟨inside, equal⟩ := List.getElem?_eq_some_iff.mp atName
      rw [List.getElem_range] at equal
      rw [List.length_range] at inside
      exact ⟨n, by rw [same, Nat.zero_add], inside, by rw [spelled, equal]⟩

/-- The text of a function answers its strict runs. -/
theorem emitFunction_answers {f : Function Op Fn} {text : CStmt Op Fn} (regular : f.body.Regular [])
    (emitted : emitFunction f = some text) {args : List Word} {mem : Mem}
    {r : List Word × World (Effect Fn) Label Word Mem} (ran : f.run m true fuel args mem = some r) :
    callProgram m fuel text args mem = some r := by
  obtain ⟨⟨text', last⟩, ofBody, same⟩ := Option.map_eq_some_iff.mp emitted
  cases same
  have starts : Emits m fuel [] (fun place => [] <:+ place) []
      (⟨fun _ => none, fun _ => none, 0⟩ : FnEmitter Op Fn) (FnEmitter.start f.params) :=
    start_emits f.params
  have untouched : (FnEmitter.start f.params : FnEmitter Op Fn).Untouched [] := by
    intro v term found _
    obtain ⟨n, param, -, -⟩ := start_registered found
    exact ⟨n, param⟩
  have ok : PhisOk ⟨[], [], []⟩ [] (FnEmitter.start f.params : FnEmitter Op Fn) :=
    ⟨nofun, List.nodup_nil, nofun, List.nodup_nil, nofun⟩
  have correct : BodyCorrect m fuel f.body := Body.correct f.body
  have body := correct starts.wf untouched regular ok ofBody
  rw [Function.run] at ran
  split at ran
  case isFalse => cases ran
  case isTrue arity =>
    obtain ⟨⟨out, c⟩, ranBody, returns⟩ := Option.bind_eq_some_iff.mp ran
    have own : Right m (FnEmitter.start f.params : FnEmitter Op Fn).emittedTerms
        (Function.start args mem : Config Fn Word Mem).env heldAlways (· = []) fun x => args[x]?.map some := by
      intro v x bound _ _
      obtain ⟨n, param, inside, spelled⟩ := start_registered bound
      cases spelled
      have isArg : args[x]? = some (args.get ⟨x, arity ▸ inside⟩) := List.getElem?_eq_getElem _
      refine ⟨_, ?_, congrArg (Option.map some) isArg⟩
      rw [param, ← isArg]
      rfl
    obtain ⟨vars, exec, -⟩ := body.answers _ _ _ out c (fun v x _ home => absurd
      (List.suffix_nil.mp home.1) home.2) own (fun x member => by cases member) ranBody
    cases out with
    | selection words => cases returns
    | loopContinue words => cases returns
    | loopBreak words => cases returns
    | returned words =>
        cases returns
        change (text'.exec m fuel ⟨fun x => args[x]?.map some, ⟨mem, []⟩⟩).bind _ = _
        have exec' : text'.exec m fuel ⟨fun x => args[x]?.map some, ⟨mem, []⟩⟩ = _ := exec
        rw [exec']
        rfl

/-! ## Strict runs are runs -/

theorem check_false {holds : Bool} : check false holds = some () := rfl

variable (m fuel) in
theorem runInstrs_of_strict (abs : Abs) : ∀ (instrs : List (Instr Op Fn)) (earlier : List (Value Op))
    (c : Config Fn Word Mem) {c' : Config Fn Word Mem}, runInstrs m true abs earlier instrs c = some c' →
    runInstrs m false abs earlier instrs c = some c' := by
  intro instrs
  induction instrs with
  | nil => exact fun _ _ _ ran => ran
  | cons instr rest ih =>
      intro earlier c c' ran
      rw [runInstrs] at ran ⊢
      obtain ⟨-, ran⟩ := check_bind_eq_some.mp ran
      obtain ⟨next, ranFirst, ranRest⟩ := Option.bind_eq_some_iff.mp ran
      rw [check_false, Option.bind_some, ranFirst, Option.bind_some]
      exact ih _ next ranRest

/-- Where the one run succeeds the other does, and in the same way. -/
def Refines (run run' : Config Fn Word Mem → Option (Outcome Word × Config Fn Word Mem)) : Prop :=
  ∀ c r, run c = some r → run' c = some r

omit [DecidableEq Op] [DecidableEq Word] in
theorem Refines.afterSelection {run run' : Config Fn Word Mem → Option (Outcome Word × Config Fn Word Mem)}
    (refines : Refines run run') (abs : Abs) {first first' : Option (Outcome Word × Config Fn Word Mem)}
    (ofFirst : ∀ r, first = some r → first' = some r) {r : Outcome Word × Config Fn Word Mem}
    (ran : first.bind (afterSelection run abs) = some r) :
    first'.bind (Backend.afterSelection run' abs) = some r := by
  obtain ⟨⟨out, c⟩, ranFirst, ranTail⟩ := Option.bind_eq_some_iff.mp ran
  rw [ofFirst _ ranFirst, Option.bind_some]
  cases out with
  | selection words => exact refines _ _ ranTail
  | returned words => exact ranTail
  | loopContinue words => exact ranTail
  | loopBreak words => exact ranTail

mutual
theorem Body.run_of_strict (head abs : Abs) : ∀ body : Body Op Fn,
    Refines (body.run m true fuel head abs) (body.run m false fuel head abs)
  | .mk instrs terminator => by
      intro c r ran
      rw [Body.run] at ran ⊢
      obtain ⟨next, ranChain, ran⟩ := Option.bind_eq_some_iff.mp ran
      obtain ⟨-, ranT⟩ := check_bind_eq_some.mp ran
      rw [runInstrs_of_strict m abs instrs [] _ ranChain, Option.bind_some, check_false,
        Option.bind_some]
      exact Terminator.run_of_strict head abs terminator _ _ ranT
theorem Terminator.run_of_strict (head abs : Abs) : ∀ t : Terminator Op Fn,
    Refines (t.run m true fuel head abs) (t.run m false fuel head abs)
  | .ret _ => fun _ _ ran => ran
  | .unreachable => fun _ _ ran => ran
  | .mergeSelection _ => fun _ _ ran => ran
  | .mergeContinue _ => fun _ _ ran => ran
  | .mergeBreak _ => fun _ _ ran => ran
  | .ifThen _ condition ifTrue ifFalse tail => by
      intro c r ran
      rw [Terminator.run] at ran ⊢
      obtain ⟨word, value, ran⟩ := Option.bind_eq_some_iff.mp ran
      rw [value, Option.bind_some]
      refine (Body.run_of_strict head (2 :: abs) tail).afterSelection abs (fun r ranFirst => ?_) ran
      split at ranFirst
      case isTrue truth =>
        rw [if_pos truth]
        exact Body.run_of_strict head (0 :: abs) ifTrue _ _ ranFirst
      case isFalse truth =>
        rw [if_neg truth]
        exact Alternative.run_of_strict head (1 :: abs) ifFalse _ _ ranFirst
  | .matchOn _ inspect cases defaultCase tail => by
      intro c r ran
      rw [Terminator.run] at ran ⊢
      obtain ⟨word, value, ran⟩ := Option.bind_eq_some_iff.mp ran
      rw [value, Option.bind_some]
      refine (Body.run_of_strict head (2 :: abs) tail).afterSelection abs (fun r ranFirst => ?_) ran
      exact Cases.run_of_strict head abs word cases 3
        (Body.run_of_strict head (0 :: abs) defaultCase) _ _ ranFirst
  | .loop initialArgs _ body tail => by
      intro c r ran
      rw [Terminator.run] at ran ⊢
      obtain ⟨words, values, ran⟩ := Option.bind_eq_some_iff.mp ran
      obtain ⟨⟨out, c₁⟩, ranLoop, ranTail⟩ := Option.bind_eq_some_iff.mp ran
      have sameTurn : ∀ turn next,
          loopTurn true (body.run m true fuel (0 :: abs) (0 :: abs)) abs turn = some next →
          loopTurn false (body.run m false fuel (0 :: abs) (0 :: abs)) abs turn = some next := by
        intro turn next ranTurn
        rw [loopTurn] at ranTurn ⊢
        obtain ⟨result, ranBody, goesOn⟩ := Option.bind_eq_some_iff.mp ranTurn
        rw [Body.run_of_strict (0 :: abs) (0 :: abs) body _ _ ranBody, Option.bind_some]
        obtain ⟨out, c₂⟩ := result
        cases out with
        | selection words => cases goesOn
        | loopContinue words => exact goesOn
        | loopBreak words => exact goesOn
        | returned words => exact goesOn
      have ranLoop' : ∃ r, loopWhile (loopTurn false (body.run m false fuel (0 :: abs) (0 :: abs)) abs) fuel
          (words, c) = some r ∧ (out, c₁) = r := by
        refine loopWhile_simulates (· = ·) (· = ·) ?_ ?_ rfl ranLoop
        · intro s t same s' ranTurn
          exact ⟨s', same ▸ sameTurn s _ ranTurn, rfl⟩
        · intro s t same result ranTurn
          exact ⟨result, same ▸ sameTurn s _ ranTurn, rfl⟩
      obtain ⟨result, ranLoop', rfl⟩ := ranLoop'
      rw [values, Option.bind_some, ranLoop', Option.bind_some]
      cases out with
      | loopBreak words => exact Body.run_of_strict head (2 :: abs) tail _ _ ranTail
      | returned words => exact ranTail
      | loopContinue words => exact ranTail
      | selection words => exact ranTail
theorem Alternative.run_of_strict (head abs : Abs) : ∀ alternative : Alternative Op Fn,
    Refines (alternative.run m true fuel head abs) (alternative.run m false fuel head abs)
  | .absent => fun _ _ ran => ran
  | .present body => Body.run_of_strict head abs body
theorem Cases.run_of_strict (head abs : Abs) (word : Word) : ∀ (cases : Cases Op Fn) (step : Nat)
    {defaultCase defaultCase' : Config Fn Word Mem → Option (Outcome Word × Config Fn Word Mem)},
    Refines defaultCase defaultCase' →
    Refines (cases.run m true fuel head abs word step defaultCase)
      (cases.run m false fuel head abs word step defaultCase')
  | .nil, _, _, _, ofDefault => ofDefault
  | .cons literal body rest, step, _, _, ofDefault => by
      intro c r ran
      rw [Cases.run] at ran ⊢
      split at ran
      case isTrue same =>
        rw [if_pos same]
        exact Body.run_of_strict head (step :: abs) body _ _ ran
      case isFalse other =>
        rw [if_neg other]
        exact Cases.run_of_strict head abs word rest (step + 1) ofDefault _ _ ran
end

theorem Function.run_of_strict {f : Function Op Fn} {args : List Word} {mem : Mem}
    {r : List Word × World (Effect Fn) Label Word Mem} (ran : f.run m true fuel args mem = some r) :
    f.run m false fuel args mem = some r := by
  rw [Function.run] at ran ⊢
  split at ran
  case isFalse => cases ran
  case isTrue arity =>
    rw [if_pos arity]
    obtain ⟨result, ranBody, returns⟩ := Option.bind_eq_some_iff.mp ran
    rw [Body.run_of_strict [] [] f.body _ _ ranBody]
    exact returns

end Correct

end Shady.Backend
