import Shady.Backend.EmitCConstructs

/-!
# Well-formed functions

A value may use what is known where it stands: the parameters of the abstractions around it
and the instructions that come before it. A merge brings as many words as the construct
that it leaves, or goes on with, has places for.
-/

set_option autoImplicit false

namespace Shady.Backend

section Scoping
variable {Op Fn : Type} [DecidableEq Op]

omit [DecidableEq Op] in
/-- What an instruction leaves behind for those that follow it. -/
def Instr.yielded (abs : Abs) (k : Nat) : Instr Op Fn → List (Value Op)
  | .load ptr => [.load abs k ptr]
  | instr => if (instr.effect.map fun e => e.2.2).getD false then [.result abs k] else []

omit [DecidableEq Op] in
def yieldedFrom (abs : Abs) : Nat → List (Instr Op Fn) → List (Value Op)
  | _, [] => []
  | k, instr :: rest => instr.yielded abs k ++ yieldedFrom abs (k + 1) rest

omit [DecidableEq Op] in
def paramsOf (abs : Abs) (count : Nat) : List (Value Op) := (List.range count).map (.param abs)

mutual
def Value.wellScoped (known : List (Value Op)) : Value Op → Bool
  | .param abs i => decide (.param abs i ∈ known)
  | .literal _ => true
  | .load abs k ptr => decide (.load abs k ptr ∈ known)
  | .result abs k => decide (.result abs k ∈ known)
  | .primOp _ operands => operands.wellScoped known
  | .inlined _ operands => operands.wellScoped known
def Operands.wellScoped (known : List (Value Op)) : Operands Op → Bool
  | .nil => true
  | .cons head tail => head.wellScoped known && tail.wellScoped known
end

/-- How many words the innermost constructs take. -/
structure Widths where
  selection : Option Nat
  loopContinue : Option Nat
  loopBreak : Option Nat

def instrsWellScoped (abs : Abs) : Nat → List (Value Op) → List (Instr Op Fn) → Bool
  | _, _, [] => true
  | k, known, instr :: rest =>
      instr.operands.wellScoped known && instrsWellScoped abs (k + 1) (known ++ instr.yielded abs k) rest

mutual
def Body.wellScoped (widths : Widths) (known : List (Value Op)) (abs : Abs) : Body Op Fn → Bool
  | .mk instrs terminator =>
      instrsWellScoped abs 0 known instrs
        && terminator.wellScoped widths (known ++ yieldedFrom abs 0 instrs) abs
def Terminator.wellScoped (widths : Widths) (known : List (Value Op)) (abs : Abs) :
    Terminator Op Fn → Bool
  | .ret args => args.wellScoped known
  | .unreachable => true
  | .ifThen yields condition ifTrue ifFalse tail =>
      condition.wellScoped known
        && ifTrue.wellScoped { widths with selection := some yields } known (0 :: abs)
        && ifFalse.wellScoped { widths with selection := some yields } yields known (1 :: abs)
        && tail.wellScoped widths (known ++ paramsOf (2 :: abs) yields) (2 :: abs)
  | .matchOn yields inspect cases defaultCase tail =>
      inspect.wellScoped known
        && defaultCase.wellScoped { widths with selection := some yields } known (0 :: abs)
        && tail.wellScoped widths (known ++ paramsOf (2 :: abs) yields) (2 :: abs)
        && cases.wellScoped { widths with selection := some yields } known abs 3
  | .loop initialArgs yields body tail =>
      let count := initialArgs.toList.length
      initialArgs.wellScoped known
        && body.wellScoped { widths with loopContinue := some count, loopBreak := some yields }
          (known ++ paramsOf (0 :: abs) count) (0 :: abs)
        && tail.wellScoped widths (known ++ paramsOf (2 :: abs) yields) (2 :: abs)
  | .mergeSelection args =>
      args.wellScoped known && decide (widths.selection = some args.toList.length)
  | .mergeContinue args =>
      args.wellScoped known && decide (widths.loopContinue = some args.toList.length)
  | .mergeBreak args =>
      args.wellScoped known && decide (widths.loopBreak = some args.toList.length)
/-- Nothing can be yielded where the alternative is missing. -/
def Alternative.wellScoped (widths : Widths) (yields : Nat) (known : List (Value Op)) (abs : Abs) :
    Alternative Op Fn → Bool
  | .absent => decide (yields = 0)
  | .present body => body.wellScoped widths known abs
def Cases.wellScoped (widths : Widths) (known : List (Value Op)) (abs : Abs) (step : Nat) :
    Cases Op Fn → Bool
  | .nil => true
  | .cons _ body rest =>
      body.wellScoped widths known (step :: abs) && rest.wellScoped widths known abs (step + 1)
end

def Function.wellFormed (f : Function Op Fn) : Bool :=
  f.body.wellScoped ⟨none, none, none⟩ (paramsOf [] f.params) []

end Scoping

/-! ## Two conditions on the text of a function -/

section Conditions
variable {Op Fn : Type}

mutual
/-- The text of the value spells no parameter of a tail. -/
def Value.tailFree : Value Op → Bool
  | .param abs _ => decide (abs.head? ≠ some 2)
  | .literal _ => true
  | .load _ _ _ => true
  | .result _ _ => true
  | .primOp _ operands => operands.tailFree
  | .inlined _ operands => operands.tailFree
def Operands.tailFree : Operands Op → Bool
  | .nil => true
  | .cons head tail => head.tailFree && tail.tailFree
end

/-- No operand in the function spells a parameter of a tail. -/
def Function.tailFree (f : Function Op Fn) : Bool := f.body.values.all Value.tailFree

mutual
def Body.hasCases : Body Op Fn → Bool
  | .mk _ terminator => terminator.hasCases
/-- Every Match has a case. -/
def Terminator.hasCases : Terminator Op Fn → Bool
  | .ret _ => true
  | .unreachable => true
  | .ifThen _ _ ifTrue ifFalse tail => ifTrue.hasCases && ifFalse.hasCases && tail.hasCases
  | .matchOn _ _ .nil _ _ => false
  | .matchOn _ _ (.cons _ body rest) defaultCase tail =>
      body.hasCases && rest.hasCases && defaultCase.hasCases && tail.hasCases
  | .loop _ _ body tail => body.hasCases && tail.hasCases
  | .mergeSelection _ => true
  | .mergeContinue _ => true
  | .mergeBreak _ => true
def Alternative.hasCases : Alternative Op Fn → Bool
  | .absent => true
  | .present body => body.hasCases
def Cases.hasCases : Cases Op Fn → Bool
  | .nil => true
  | .cons _ body rest => body.hasCases && rest.hasCases
end

end Conditions

/-! ## Well-formed functions are regular -/

section Regular
variable {Op Fn : Type} [DecidableEq Op] {known : List (Value Op)} {abs : Abs}

/-- What is known at an abstraction is around it. -/
def KnownAround (known : List (Value Op)) (abs : Abs) : Prop := ∀ v ∈ known, v.Within abs

omit [DecidableEq Op] in
theorem KnownAround.child (around : KnownAround known abs) (step : Nat) :
    KnownAround known (step :: abs) :=
  fun v member => (around v member).mono (List.suffix_cons step abs)

omit [DecidableEq Op] in
theorem KnownAround.append {more : List (Value Op)} (around : KnownAround known abs)
    (around' : KnownAround more abs) : KnownAround (known ++ more) abs := by
  intro v member
  cases List.mem_append.mp member with
  | inl before => exact around v before
  | inr after => exact around' v after

omit [DecidableEq Op] in
theorem knownAround_paramsOf (abs : Abs) (count : Nat) :
    KnownAround (paramsOf abs count : List (Value Op)) abs := by
  intro v member
  obtain ⟨i, -, rfl⟩ := List.mem_map.mp member
  intro place inPlaces
  rw [List.mem_singleton.mp inPlaces]

mutual
theorem Value.within_of_scoped (around : KnownAround known abs) :
    ∀ v : Value Op, v.wellScoped known = true → v.Within abs
  | .param place i, inScope => around _ (of_decide_eq_true inScope)
  | .literal n, _ => fun place member => nomatch member
  | .load place k ptr, inScope => around _ (of_decide_eq_true inScope)
  | .result place k, inScope => around _ (of_decide_eq_true inScope)
  | .primOp op operands, inScope => Operands.around_of_scoped around operands inScope
  | .inlined op operands, inScope => Operands.around_of_scoped around operands inScope
theorem Operands.around_of_scoped (around : KnownAround known abs) :
    ∀ vs : Operands Op, vs.wellScoped known = true → ∀ place ∈ vs.places, place <:+ abs
  | .nil, _ => fun place member => nomatch member
  | .cons head tail, inScope => by
      rw [Operands.wellScoped, Bool.and_eq_true] at inScope
      intro place member
      cases List.mem_append.mp member with
      | inl inHead => exact Value.within_of_scoped around head inScope.1 place inHead
      | inr inTail => exact Operands.around_of_scoped around tail inScope.2 place inTail
end

omit [DecidableEq Op] in
theorem Instr.yielded_around {k : Nat} {instr : Instr Op Fn}
    (within : ∀ place ∈ instr.operands.places, place <:+ abs) :
    KnownAround (instr.yielded abs k) abs := by
  have ofResult : ∀ returns : Bool,
      KnownAround (if returns then [Value.result abs k] else [] : List (Value Op)) abs := by
    intro returns v member place inPlaces
    cases returns with
    | false => cases member
    | true =>
        rw [List.mem_singleton.mp member] at inPlaces
        rw [List.mem_singleton.mp inPlaces]
  cases instr with
  | load ptr =>
      intro v member place inPlaces
      rw [List.mem_singleton.mp member, Value.places, List.mem_cons] at inPlaces
      cases inPlaces with
      | inl own => rw [own]
      | inr ofPtr => exact within place (List.mem_append.mpr (.inl ofPtr))
  | store ptr value => exact ofResult false
  | call callee args returns => cases callee <;> exact ofResult returns
  | copyBytes dst src count => exact ofResult false
  | fillBytes dst src count => exact ofResult false
  | localAlloc => exact ofResult true

theorem instrsWellScoped_around (instrs : List (Instr Op Fn)) : ∀ {k : Nat} {known : List (Value Op)},
    KnownAround known abs → instrsWellScoped abs k known instrs = true →
    (∀ instr ∈ instrs, ∀ place ∈ instr.operands.places, place <:+ abs) ∧
      KnownAround (yieldedFrom abs k instrs) abs := by
  induction instrs with
  | nil => exact fun _ _ => ⟨nofun, nofun⟩
  | cons instr rest ih =>
      intro k known around inScope
      rw [instrsWellScoped, Bool.and_eq_true] at inScope
      have own := Operands.around_of_scoped around instr.operands inScope.1
      have yielded := Instr.yielded_around (k := k) own
      obtain ⟨others, yields⟩ := ih (around.append yielded) inScope.2
      exact ⟨List.forall_mem_cons.mpr ⟨own, others⟩, yielded.append yields⟩

mutual
theorem Body.regular_of_scoped : ∀ (body : Body Op Fn) {widths : Widths} {known : List (Value Op)}
    {abs : Abs}, KnownAround known abs → body.wellScoped widths known abs = true →
    body.hasCases = true → body.Regular abs
  | .mk instrs terminator, widths, known, abs, around, inScope, cases => by
      rw [Body.wellScoped, Bool.and_eq_true] at inScope
      obtain ⟨own, yields⟩ := instrsWellScoped_around instrs around inScope.1
      exact ⟨own, Terminator.regular_of_scoped terminator (around.append yields) inScope.2 cases⟩
theorem Terminator.regular_of_scoped : ∀ (t : Terminator Op Fn) {widths : Widths}
    {known : List (Value Op)} {abs : Abs}, KnownAround known abs →
    t.wellScoped widths known abs = true → t.hasCases = true → t.Regular abs
  | .ret args, _, _, _, around, inScope, _ => Operands.around_of_scoped around args inScope
  | .unreachable, _, _, _, _, _, _ => trivial
  | .ifThen yields condition ifTrue ifFalse tail, _, _, abs, around, inScope, cases => by
      simp only [Terminator.wellScoped, Terminator.hasCases, Bool.and_eq_true] at inScope cases
      obtain ⟨⟨⟨ofCondition, ofTrue⟩, ofFalse⟩, ofTail⟩ := inScope
      obtain ⟨⟨casesTrue, casesFalse⟩, casesTail⟩ := cases
      exact ⟨Value.within_of_scoped around condition ofCondition,
        Body.regular_of_scoped ifTrue (around.child 0) ofTrue casesTrue,
        Alternative.regular_of_scoped ifFalse (around.child 1) ofFalse casesFalse,
        Body.regular_of_scoped tail ((around.child 2).append (knownAround_paramsOf _ _)) ofTail casesTail⟩
  | .matchOn yields inspect .nil defaultCase tail, _, _, _, _, _, cases => nomatch cases
  | .matchOn yields inspect (.cons literal body rest) defaultCase tail, _, _, abs, around, inScope, cases => by
      simp only [Terminator.wellScoped, Cases.wellScoped, Terminator.hasCases, Bool.and_eq_true] at inScope cases
      obtain ⟨⟨⟨ofInspect, ofDefault⟩, ofTail⟩, ofBody, ofRest⟩ := inScope
      obtain ⟨⟨⟨casesBody, casesRest⟩, casesDefault⟩, casesTail⟩ := cases
      exact ⟨Value.within_of_scoped around inspect ofInspect,
        ⟨Body.regular_of_scoped body (around.child 3) ofBody casesBody,
          Cases.regular_of_scoped rest around ofRest casesRest⟩, nofun,
        Body.regular_of_scoped defaultCase (around.child 0) ofDefault casesDefault,
        Body.regular_of_scoped tail ((around.child 2).append (knownAround_paramsOf _ _)) ofTail casesTail⟩
  | .loop initialArgs yields body tail, _, _, abs, around, inScope, cases => by
      simp only [Terminator.wellScoped, Terminator.hasCases, Bool.and_eq_true] at inScope cases
      obtain ⟨⟨ofArgs, ofBody⟩, ofTail⟩ := inScope
      exact ⟨Operands.around_of_scoped around initialArgs ofArgs,
        Body.regular_of_scoped body ((around.child 0).append (knownAround_paramsOf _ _)) ofBody cases.1,
        Body.regular_of_scoped tail ((around.child 2).append (knownAround_paramsOf _ _)) ofTail cases.2⟩
  | .mergeSelection args, _, _, _, around, inScope, _ =>
      Operands.around_of_scoped around args (Bool.and_eq_true _ _ ▸ inScope).1
  | .mergeContinue args, _, _, _, around, inScope, _ =>
      Operands.around_of_scoped around args (Bool.and_eq_true _ _ ▸ inScope).1
  | .mergeBreak args, _, _, _, around, inScope, _ =>
      Operands.around_of_scoped around args (Bool.and_eq_true _ _ ▸ inScope).1
theorem Alternative.regular_of_scoped : ∀ (alternative : Alternative Op Fn) {widths : Widths}
    {yields : Nat} {known : List (Value Op)} {abs : Abs}, KnownAround known abs →
    alternative.wellScoped widths yields known abs = true → alternative.hasCases = true →
    alternative.Regular abs
  | .absent, _, _, _, _, _, _, _ => trivial
  | .present body, _, _, _, _, around, inScope, cases => Body.regular_of_scoped body around inScope cases
theorem Cases.regular_of_scoped : ∀ (cases : Cases Op Fn) {widths : Widths}
    {known : List (Value Op)} {abs : Abs} {step : Nat}, KnownAround known abs →
    cases.wellScoped widths known abs step = true → cases.hasCases = true → cases.Regular abs step
  | .nil, _, _, _, _, _, _, _ => trivial
  | .cons literal body rest, _, _, _, step, around, inScope, cases => by
      simp only [Cases.wellScoped, Cases.hasCases, Bool.and_eq_true] at inScope cases
      exact ⟨Body.regular_of_scoped body (around.child step) inScope.1 cases.1,
        Cases.regular_of_scoped rest around inScope.2 cases.2⟩
end

theorem Function.regular_of_wellFormed {f : Function Op Fn} (wellFormed : f.wellFormed = true)
    (cases : f.body.hasCases = true) : f.body.Regular [] :=
  Body.regular_of_scoped f.body (knownAround_paramsOf [] f.params) wellFormed cases

end Regular

end Shady.Backend
