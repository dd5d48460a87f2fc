import Shady.Backend.EmitCScopes

/-!
# Well-formed functions are emitted

Emission of a well-formed function succeeds if and only if the function spells no parameter
of a tail: at every construct the parameters of its tail are still missing while the tail
is emitted. The induction is over the syntax, each stage handing on what is registered.
-/

set_option autoImplicit false

namespace Shady.Backend

open Imperative

section Stages
variable {Op Fn : Type} [DecidableEq Op] {fn fn' fn'' : FnEmitter Op Fn} {abs : Abs}
variable {known : List (Value Op)}

/-! ## Chains and transfers -/

theorem emitEffect_advances {k : Nat} {kind : Effect Fn} {operands : Operands Op} {returns : Bool}
    (emitted : emitEffect abs k kind operands returns fn = some fn') :
    Grows fn fn' ∧
      ∀ v ∈ if returns then [Value.result abs k] else [], fn'.emittedTerms v ≠ none := by
  obtain ⟨⟨texts, next⟩, ofOperands, printed⟩ := Option.bind_eq_some_iff.mp emitted
  obtain ⟨first, -⟩ := emitOperands_advances operands ofOperands
  cases returns with
  | false => exact ⟨first.trans (advances_print printed), nofun⟩
  | true =>
      obtain ⟨last, ofPrint, equal⟩ := Option.map_eq_some_iff.mp printed
      cases equal
      have second := first.trans (advances_makeUniqueName.trans (advances_print ofPrint))
      refine ⟨second.trans (advances_register nofun nofun), ?_⟩
      intro v member
      exact registered_registerEmitted.mpr (.inl (List.mem_singleton.mp member))

theorem emitInstruction_advances {k : Nat} {instr : Instr Op Fn}
    (emitted : emitInstruction abs k instr fn = some fn') :
    Grows fn fn' ∧ ∀ v ∈ instr.yielded abs k, fn'.emittedTerms v ≠ none := by
  cases instr with
  | load ptr =>
      obtain ⟨⟨address, next⟩, ofPtr, equal⟩ := Option.map_eq_some_iff.mp emitted
      cases equal
      refine ⟨(emitValue_advances ptr ofPtr).1.trans (advances_register nofun nofun), ?_⟩
      intro v member
      exact registered_registerEmitted.mpr (.inl (List.mem_singleton.mp member))
  | store ptr value => exact emitEffect_advances emitted
  | call callee args returns => cases callee <;> exact emitEffect_advances emitted
  | copyBytes dst src count => exact emitEffect_advances emitted
  | fillBytes dst src count => exact emitEffect_advances emitted
  | localAlloc =>
      have allocated : emitEffect abs k .localAlloc .nil true fn = some fn' := emitted
      exact emitEffect_advances allocated

theorem emitMem_advances (instrs : List (Instr Op Fn)) : ∀ {k : Nat} {fn fn' : FnEmitter Op Fn},
    emitMem abs k instrs fn = some fn' →
    Grows fn fn' ∧ ∀ v ∈ yieldedFrom abs k instrs, fn'.emittedTerms v ≠ none := by
  induction instrs with
  | nil =>
      intro k fn fn' emitted
      cases emitted
      exact ⟨Advances.refl _ _ _, nofun⟩
  | cons instr rest ih =>
      intro k fn fn' emitted
      obtain ⟨next, ofFirst, ofRest⟩ := Option.bind_eq_some_iff.mp emitted
      obtain ⟨first, yielded⟩ := emitInstruction_advances ofFirst
      obtain ⟨others, yields⟩ := ih ofRest
      refine ⟨first.trans others, ?_⟩
      intro v member
      cases List.mem_append.mp member with
      | inl own => exact others.stays v (yielded v own)
      | inr later => exact yields v later

omit [DecidableEq Op] in
theorem declarePhis_advances : ∀ (count : Nat) {fn fn' : FnEmitter Op Fn} {xs : List Nat},
    declarePhis abs count fn = some (xs, fn') → Grows fn fn' ∧ xs.length = count
  | 0, _, _, _, declared => by
      cases declared
      exact ⟨Advances.refl _ _ _, rfl⟩
  | count + 1, fn, fn', xs, declared => by
      obtain ⟨printed, ofPrint, rest⟩ := Option.bind_eq_some_iff.mp declared
      obtain ⟨⟨names, last⟩, ofRest, equal⟩ := Option.map_eq_some_iff.mp rest
      cases equal
      obtain ⟨others, length⟩ := declarePhis_advances count ofRest
      exact ⟨advances_makeUniqueName.trans ((advances_print ofPrint).trans others), congrArg (· + 1) length⟩

theorem declareInitialised_advances : ∀ (args : Operands Op) {fn fn' : FnEmitter Op Fn} {xs : List Nat},
    declareInitialised abs args fn = some (xs, fn') → Grows fn fn' ∧ xs.length = args.toList.length
  | .nil, _, _, _, declared => by
      cases declared
      exact ⟨Advances.refl _ _ _, rfl⟩
  | .cons head tail, fn, fn', xs, declared => by
      obtain ⟨⟨text, next⟩, ofHead, rest⟩ := Option.bind_eq_some_iff.mp declared
      obtain ⟨printed, ofPrint, rest⟩ := Option.bind_eq_some_iff.mp rest
      obtain ⟨⟨names, last⟩, ofTail, equal⟩ := Option.map_eq_some_iff.mp rest
      cases equal
      obtain ⟨others, length⟩ := declareInitialised_advances tail ofTail
      have first := advances_makeUniqueName.trans (emitValue_advances head ofHead).1
      exact ⟨first.trans ((advances_print ofPrint).trans others), congrArg (· + 1) length⟩

theorem emitTransfer_advances : ∀ (args : Operands Op) {xs : List Nat} {fn fn' : FnEmitter Op Fn},
    emitTransfer abs xs args fn = some fn' → Grows fn fn'
  | .nil, [], _, _, emitted => by
      cases emitted
      exact Advances.refl _ _ _
  | .nil, x :: xs, _, _, emitted => nomatch emitted
  | .cons head tail, [], _, _, emitted => nomatch emitted
  | .cons head tail, x :: xs, fn, fn', emitted => by
      obtain ⟨⟨text, next⟩, ofHead, rest⟩ := Option.bind_eq_some_iff.mp emitted
      obtain ⟨printed, ofPrint, ofTail⟩ := Option.bind_eq_some_iff.mp rest
      exact (emitValue_advances head ofHead).1.trans
        ((advances_print ofPrint).trans (emitTransfer_advances tail ofTail))

/-! ## Bodies and constructs -/

omit [DecidableEq Op] in
/-- What happens in a body, seen from the abstraction around it. -/
theorem Advances.of_child {step : Nat}
    (advances : Advances (fun place => (step :: abs) <:+ place) (properlyAround (step :: abs)) fn fn') :
    Advances (below abs) (around abs) fn fn' := by
  refine advances.mono (fun place inside => ⟨step, inside⟩) ?_
  intro place outer
  exact ⟨outer.trans (List.suffix_cons step abs), fun same => not_below_self (same ▸ outer)⟩

theorem advances_params {step : Nat} {xs : List Nat} :
    Advances (below abs) (around abs) fn (FnEmitter.registerParams (step :: abs) 0 xs fn) :=
  (advances_registerParams xs 0 fn).mono (fun _ same => ⟨step, same ▸ List.suffix_refl _⟩)
    fun _ _ => trivial

/-- The end of a construct: its text, the parameters of the tail, and the text of the tail. -/
theorem advances_tail {xs : List Nat} {construct tail : CStmt Op Fn}
    (emitted : (fn.print abs construct).bind (fun fn =>
      (FnEmitter.registerParams (2 :: abs) 0 xs fn).print abs tail) = some fn') :
    Advances (below abs) (around abs) fn fn' := by
  obtain ⟨printed, ofConstruct, ofTail⟩ := Option.bind_eq_some_iff.mp emitted
  exact (Advances.of_grows (advances_print ofConstruct)).trans
    (advances_params.trans (Advances.of_grows (advances_print ofTail)))

/-- What happens in a block happens below the one it belongs to. -/
theorem Advances.outOfChild {step : Nat} {abs : Abs} {fn fn' : FnEmitter Op Fn}
    (inner : Advances (below (step :: abs)) (properlyAround (step :: abs)) fn fn') :
    Advances (below abs) (around abs) fn fn' :=
  Advances.of_child (inner.mono (fun _ => inside_of_below) fun _ => id)

mutual
theorem emitBody_advances : ∀ (body : Body Op Fn) {phis : Phis} {abs : Abs} {fn fn' : FnEmitter Op Fn}
    {text : CStmt Op Fn}, emitBody phis abs body fn = some (text, fn') →
    Advances (below abs) (properlyAround abs) fn fn'
  | .mk instrs terminator, phis, abs, fn, fn', text, emitted => by
      obtain ⟨chained, ofChain, rest⟩ := Option.bind_eq_some_iff.mp emitted
      obtain ⟨ended, ofTerminator, closed⟩ := Option.bind_eq_some_iff.mp rest
      have first : Grows fn chained := advances_openPrinter.trans (emitMem_advances instrs ofChain).1
      have second := emitTerminator_advances terminator ofTerminator
      refine (Advances.of_grows first).trans ((second.mono (fun _ => id) fun _ outer => outer.1).trans ?_)
      exact advances_closePrinter (fun proper => proper.2 rfl) closed
theorem emitTerminator_advances : ∀ (t : Terminator Op Fn) {phis : Phis} {abs : Abs}
    {fn fn' : FnEmitter Op Fn}, emitTerminator phis abs t fn = some fn' →
    Advances (below abs) (around abs) fn fn'
  | .ret args, phis, abs, fn, fn', emitted => by
      obtain ⟨⟨texts, next⟩, ofArgs, ofPrint⟩ := Option.bind_eq_some_iff.mp emitted
      exact Advances.of_grows ((emitOperands_advances args ofArgs).1.trans (advances_print ofPrint))
  | .unreachable, phis, abs, fn, fn', emitted => Advances.of_grows (advances_print emitted)
  | .ifThen yields condition ifTrue ifFalse tail, phis, abs, fn, fn', emitted => by
      obtain ⟨⟨xs, declared⟩, ofPhis, rest⟩ := Option.bind_eq_some_iff.mp emitted
      obtain ⟨⟨trueText, inTrue⟩, ofTrue, rest⟩ := Option.bind_eq_some_iff.mp rest
      obtain ⟨⟨falseText, inFalse⟩, ofFalse, rest⟩ := Option.bind_eq_some_iff.mp rest
      obtain ⟨⟨tailText, inTail⟩, ofTail, rest⟩ := Option.bind_eq_some_iff.mp rest
      obtain ⟨⟨conditionText, last⟩, ofCondition, rest⟩ := Option.bind_eq_some_iff.mp rest
      refine (Advances.of_grows (declarePhis_advances yields ofPhis).1).trans ?_
      refine (emitBody_advances ifTrue ofTrue).outOfChild.trans ?_
      refine (emitAlternative_below ifFalse ofFalse).trans ?_
      refine (emitBody_advances tail ofTail).outOfChild.trans ?_
      exact (Advances.of_grows (emitValue_advances condition ofCondition).1).trans (advances_tail rest)
  | .matchOn yields inspect cases defaultCase tail, phis, abs, fn, fn', emitted => by
      obtain ⟨⟨xs, declared⟩, ofPhis, rest⟩ := Option.bind_eq_some_iff.mp emitted
      obtain ⟨⟨inspectee, inspected⟩, ofInspect, rest⟩ := Option.bind_eq_some_iff.mp rest
      obtain ⟨⟨defaultText, inDefault⟩, ofDefault, rest⟩ := Option.bind_eq_some_iff.mp rest
      obtain ⟨⟨tailText, inTail⟩, ofTail, rest⟩ := Option.bind_eq_some_iff.mp rest
      obtain ⟨⟨bodies, inCases⟩, ofCases, rest⟩ := Option.bind_eq_some_iff.mp rest
      refine (Advances.of_grows (declarePhis_advances yields ofPhis).1).trans ?_
      refine (Advances.of_grows (emitValue_advances inspect ofInspect).1).trans ?_
      refine (emitBody_advances defaultCase ofDefault).outOfChild.trans ?_
      refine (emitBody_advances tail ofTail).outOfChild.trans ?_
      exact (emitCases_advances cases ofCases).trans (advances_tail rest)
  | .loop initialArgs yields body tail, phis, abs, fn, fn', emitted => by
      obtain ⟨⟨params, initialised⟩, ofArgs, rest⟩ := Option.bind_eq_some_iff.mp emitted
      obtain ⟨⟨xs, declared⟩, ofPhis, rest⟩ := Option.bind_eq_some_iff.mp rest
      obtain ⟨⟨bodyText, inBody⟩, ofBody, rest⟩ := Option.bind_eq_some_iff.mp rest
      obtain ⟨⟨tailText, inTail⟩, ofTail, rest⟩ := Option.bind_eq_some_iff.mp rest
      refine (Advances.of_grows (declareInitialised_advances initialArgs ofArgs).1).trans ?_
      have named : Advances (below abs) (around abs) initialised
          (FnEmitter.registerParams (0 :: abs) 0 params initialised) := advances_params
      refine named.trans ?_
      refine (Advances.of_grows (declarePhis_advances yields ofPhis).1).trans ?_
      refine (emitBody_advances body ofBody).outOfChild.trans ?_
      exact (emitBody_advances tail ofTail).outOfChild.trans (advances_tail rest)
  | .mergeSelection args, phis, abs, fn, fn', emitted => by
      obtain ⟨next, ofArgs, ofPrint⟩ := Option.bind_eq_some_iff.mp emitted
      exact Advances.of_grows ((emitTransfer_advances args ofArgs).trans (advances_print ofPrint))
  | .mergeContinue args, phis, abs, fn, fn', emitted => by
      obtain ⟨next, ofArgs, rest⟩ := Option.bind_eq_some_iff.mp emitted
      obtain ⟨marked, ofMark, ofPrint⟩ := Option.bind_eq_some_iff.mp rest
      exact Advances.of_grows ((emitTransfer_advances args ofArgs).trans
        ((advances_print ofMark).trans (advances_print ofPrint)))
  | .mergeBreak args, phis, abs, fn, fn', emitted => by
      obtain ⟨next, ofArgs, rest⟩ := Option.bind_eq_some_iff.mp emitted
      obtain ⟨marked, ofMark, ofPrint⟩ := Option.bind_eq_some_iff.mp rest
      exact Advances.of_grows ((emitTransfer_advances args ofArgs).trans
        ((advances_print ofMark).trans (advances_print ofPrint)))
theorem emitAlternative_below : ∀ (alternative : Alternative Op Fn) {phis : Phis} {step : Nat} {abs : Abs}
    {fn fn' : FnEmitter Op Fn} {text : CStmt Op Fn},
    emitAlternative phis (step :: abs) alternative fn = some (text, fn') →
    Advances (below abs) (around abs) fn fn'
  | .absent, _, _, _, _, _, _, emitted => by
      cases emitted
      exact Advances.refl _ _ _
  | .present body, _, _, _, _, _, _, emitted => (emitBody_advances body emitted).outOfChild
theorem emitCases_advances : ∀ (cases : Cases Op Fn) {phis : Phis} {step : Nat} {abs : Abs}
    {fn fn' : FnEmitter Op Fn} {bodies : List (Expr Op × CStmt Op Fn)},
    emitCases phis abs step cases fn = some (bodies, fn') → Advances (below abs) (around abs) fn fn'
  | .nil, _, _, _, _, _, _, emitted => by
      cases emitted
      exact Advances.refl _ _ _
  | .cons literal body rest, phis, step, abs, fn, fn', bodies, emitted => by
      obtain ⟨⟨literalText, next⟩, ofLiteral, others⟩ := Option.bind_eq_some_iff.mp emitted
      obtain ⟨⟨text, inBody⟩, ofBody, others⟩ := Option.bind_eq_some_iff.mp others
      obtain ⟨⟨texts, last⟩, ofRest, equal⟩ := Option.map_eq_some_iff.mp others
      cases equal
      refine (Advances.of_grows (emitValue_advances (.literal literal) ofLiteral).1).trans ?_
      exact (emitBody_advances body ofBody).outOfChild.trans (emitCases_advances rest ofRest)
end

theorem emitBody_below (body : Body Op Fn) {phis : Phis} {step : Nat} {abs : Abs}
    {fn fn' : FnEmitter Op Fn} {text : CStmt Op Fn}
    (emitted : emitBody phis (step :: abs) body fn = some (text, fn')) :
    Advances (below abs) (around abs) fn fn' :=
  (emitBody_advances body emitted).outOfChild

/-! ## What succeeds -/

theorem emitEffect_isSome {k : Nat} {kind : Effect Fn} {operands : Operands Op} {returns : Bool}
    (around' : KnownAround known abs) (tracks : Tracks known (around abs) fn)
    (inScope : operands.wellScoped known = true) :
    (emitEffect abs k kind operands returns fn).isSome = true ↔ operands.tailFree = true := by
  have ofOperands := emitOperands_isSome operands around' tracks inScope
  have printed : (emitEffect abs k kind operands returns fn).isSome = true
      ↔ operands.tailFree = true ∧ True := by
    refine isSome_bind_iff ofOperands fun emitted ofEmit => ?_
    have isOpen := (tracks.grows (emitOperands_advances operands ofEmit).1).opens abs (List.suffix_refl abs)
    rw [iff_true]
    cases returns with
    | false => exact print_isSome.mpr isOpen
    | true =>
        rw [if_pos rfl, Option.isSome_map]
        exact print_isSome.mpr isOpen
  rw [printed, and_true]

theorem emitInstruction_isSome {k : Nat} {instr : Instr Op Fn} (around' : KnownAround known abs)
    (tracks : Tracks known (around abs) fn) (inScope : instr.operands.wellScoped known = true) :
    (emitInstruction abs k instr fn).isSome = true ↔ instr.operands.tailFree = true := by
  cases instr with
  | load ptr =>
      have ofPtr : ptr.wellScoped known = true := by
        have both := inScope
        rw [Instr.operands, Operands.wellScoped, Bool.and_eq_true] at both
        exact both.1
      rw [emitInstruction, Option.isSome_map, emitValue_isSome ptr around' tracks ofPtr]
      rw [Instr.operands, Operands.tailFree, Operands.tailFree, Bool.and_true]
  | store ptr value => exact emitEffect_isSome around' tracks inScope
  | call callee args returns => cases callee <;> exact emitEffect_isSome around' tracks inScope
  | copyBytes dst src count => exact emitEffect_isSome around' tracks inScope
  | fillBytes dst src count => exact emitEffect_isSome around' tracks inScope
  | localAlloc =>
      have allocated : (emitEffect abs k (.localAlloc : Effect Fn) .nil true fn).isSome = true
          ↔ (.nil : Operands Op).tailFree = true := emitEffect_isSome around' tracks inScope
      exact allocated

omit [DecidableEq Op] in
/-- An instruction is known once it is registered. -/
theorem Tracks.append {more : List (Value Op)} {outer : Abs → Prop} (tracks : Tracks known outer fn)
    (registered : ∀ v ∈ more, fn.emittedTerms v ≠ none)
    (noParams : ∀ place i, .param place i ∉ more) : Tracks (known ++ more) outer fn where
  ready v member free := by
    cases List.mem_append.mp member with
    | inl before => exact tracks.ready v before free
    | inr after => exact registered v after
  missing place i member := by
    cases List.mem_append.mp member with
    | inl before => exact tracks.missing place i before
    | inr after => exact absurd after (noParams _ i)
  closed := tracks.closed
  opens := tracks.opens

omit [DecidableEq Op] in
theorem param_not_yielded {k i : Nat} {place : Abs} {instr : Instr Op Fn} :
    .param place i ∉ instr.yielded abs k := by
  intro member
  cases instr with
  | load ptr => exact nomatch List.mem_singleton.mp member
  | store ptr value => cases member
  | call callee args returns =>
      cases callee <;> cases returns <;>
        first | exact nomatch List.mem_singleton.mp member | exact nomatch member
  | copyBytes dst src count => cases member
  | fillBytes dst src count => cases member
  | localAlloc => exact nomatch List.mem_singleton.mp member

theorem emitMem_isSome (instrs : List (Instr Op Fn)) : ∀ {k : Nat} {known : List (Value Op)}
    {fn : FnEmitter Op Fn}, KnownAround known abs → Tracks known (around abs) fn →
    instrsWellScoped abs k known instrs = true →
    ((emitMem abs k instrs fn).isSome = true ↔ ∀ v ∈ chainValues instrs, v.tailFree = true) ∧
      ∀ fn', emitMem abs k instrs fn = some fn' →
        Tracks (known ++ yieldedFrom abs k instrs) (around abs) fn' := by
  induction instrs with
  | nil =>
      intro k known fn around' tracks _
      refine ⟨⟨fun _ => nofun, fun _ => rfl⟩, fun fn' emitted => ?_⟩
      cases emitted
      rw [yieldedFrom, List.append_nil]
      exact tracks
  | cons instr rest ih =>
      intro k known fn around' tracks inScope
      rw [instrsWellScoped, Bool.and_eq_true] at inScope
      have within := Operands.around_of_scoped around' instr.operands inScope.1
      have known' := around'.append (Instr.yielded_around (k := k) within)
      have next : ∀ fn₁, emitInstruction abs k instr fn = some fn₁ →
          Tracks (known ++ instr.yielded abs k) (around abs) fn₁ := by
        intro fn₁ ofFirst
        obtain ⟨grows, registered⟩ := emitInstruction_advances ofFirst
        exact (tracks.grows grows).append registered fun _ _ => param_not_yielded
      constructor
      · have values : chainValues (instr :: rest) = instr.operands.toList ++ chainValues rest := rfl
        rw [values, List.forall_mem_append, ← Operands.tailFree_iff]
        exact isSome_bind_iff (emitInstruction_isSome around' tracks inScope.1)
          fun fn₁ ofFirst => (ih known' (next fn₁ ofFirst) inScope.2).1
      · intro fn' emitted
        obtain ⟨fn₁, ofFirst, ofRest⟩ := Option.bind_eq_some_iff.mp emitted
        rw [yieldedFrom, ← List.append_assoc]
        exact (ih known' (next fn₁ ofFirst) inScope.2).2 fn' ofRest

omit [DecidableEq Op] in
theorem declarePhis_isSome : ∀ (count : Nat) {fn : FnEmitter Op Fn}, fn.IsOpen abs →
    ((declarePhis abs count fn).isSome = true)
  | 0, _, _ => rfl
  | count + 1, fn, isOpen => by
      have printed : (fn.makeUniqueName.2.print abs (.declare fn.makeUniqueName.1 none)).isSome = true :=
        print_isSome.mpr (advances_makeUniqueName.opens abs trivial isOpen)
      obtain ⟨next, ofPrint⟩ := Option.isSome_iff_exists.mp printed
      rw [declarePhis, ofPrint, Option.bind_some, Option.isSome_map]
      exact declarePhis_isSome count ((advances_print ofPrint).opens abs trivial
        (advances_makeUniqueName.opens abs trivial isOpen))

theorem declareInitialised_isSome : ∀ (args : Operands Op) {fn : FnEmitter Op Fn},
    KnownAround known abs → Tracks known (around abs) fn → args.wellScoped known = true →
    ((declareInitialised abs args fn).isSome = true ↔ args.tailFree = true)
  | .nil, _, _, _, _ => ⟨fun _ => rfl, fun _ => rfl⟩
  | .cons head tail, fn, around', tracks, inScope => by
      rw [Operands.wellScoped, Bool.and_eq_true] at inScope
      have named := tracks.grows advances_makeUniqueName
      rw [declareInitialised, Operands.tailFree, Bool.and_eq_true, ← true_and (tail.tailFree = true)]
      refine isSome_bind_iff (emitValue_isSome head around' named inScope.1) fun first ofHead => ?_
      have tracks' := named.grows (emitValue_advances head ofHead).1
      refine isSome_bind_iff (iff_true_intro (print_isSome.mpr ?_)) fun printed ofPrint => ?_
      · exact tracks'.opens abs (List.suffix_refl abs)
      · rw [Option.isSome_map]
        exact declareInitialised_isSome tail around' (tracks'.grows (advances_print ofPrint)) inScope.2

theorem emitTransfer_isSome : ∀ (args : Operands Op) {xs : List Nat} {fn : FnEmitter Op Fn},
    xs.length = args.toList.length → KnownAround known abs → Tracks known (around abs) fn →
    args.wellScoped known = true →
    ((emitTransfer abs xs args fn).isSome = true ↔ args.tailFree = true)
  | .nil, [], _, _, _, _, _ => ⟨fun _ => rfl, fun _ => rfl⟩
  | .nil, x :: xs, _, counts, _, _, _ => nomatch counts
  | .cons head tail, [], _, counts, _, _, _ => nomatch counts
  | .cons head tail, x :: xs, fn, counts, around', tracks, inScope => by
      rw [Operands.wellScoped, Bool.and_eq_true] at inScope
      rw [emitTransfer, Operands.tailFree, Bool.and_eq_true, ← true_and (tail.tailFree = true)]
      refine isSome_bind_iff (emitValue_isSome head around' tracks inScope.1) fun first ofHead => ?_
      have tracks' := tracks.grows (emitValue_advances head ofHead).1
      refine isSome_bind_iff (iff_true_intro (print_isSome.mpr ?_)) fun printed ofPrint => ?_
      · exact tracks'.opens abs (List.suffix_refl abs)
      · exact emitTransfer_isSome tail (Nat.succ.inj counts) around'
          (tracks'.grows (advances_print ofPrint)) inScope.2

end Stages

/-! ## The induction -/

section Induction
variable {Op Fn : Type} {fn fn' : FnEmitter Op Fn} {abs : Abs} {known : List (Value Op)}

/-- There are as many variables as the innermost constructs take words. -/
structure Phis.Fits (phis : Phis) (widths : Widths) : Prop where
  selection : ∀ count, widths.selection = some count → phis.selection.length = count
  loopContinue : ∀ count, widths.loopContinue = some count → phis.loopContinue.length = count
  loopBreak : ∀ count, widths.loopBreak = some count → phis.loopBreak.length = count

theorem Phis.Fits.select {phis : Phis} {widths : Widths} {xs : List Nat} {yields : Nat}
    (fits : phis.Fits widths) (length : xs.length = yields) :
    Phis.Fits { phis with selection := xs } { widths with selection := some yields } where
  selection _ same := length.trans (Option.some.inj same)
  loopContinue := fits.loopContinue
  loopBreak := fits.loopBreak

/-- No parameter of the region is registered. -/
def MissingIn (region : Abs → Prop) (fn : FnEmitter Op Fn) : Prop :=
  ∀ place i, region place → fn.emittedTerms (.param place i) = none

theorem MissingIn.advances {region inner outer : Abs → Prop} (missing : MissingIn region fn)
    (advances : Advances inner outer fn fn') (apart : ∀ place, region place → ¬ inner place) :
    MissingIn region fn' :=
  fun place i inRegion => advances.params place i (apart place inRegion) (missing place i inRegion)

theorem MissingIn.grows {region : Abs → Prop} (missing : MissingIn region fn) (grows : Grows fn fn') :
    MissingIn region fn' := missing.advances grows fun _ _ impossible => impossible

def inside (abs : Abs) : Abs → Prop := fun place => abs <:+ place

theorem MissingIn.child {step : Nat} (missing : MissingIn (below abs) fn) :
    MissingIn (inside (step :: abs)) fn := fun place i isInside => missing place i ⟨step, isInside⟩

theorem MissingIn.below (missing : MissingIn (inside abs) fn) : MissingIn (Backend.below abs) fn :=
  fun place i isBelow => missing place i (inside_of_below isBelow)

variable [DecidableEq Op]

/-- The emission of one child leaves the region of another as it is. -/
theorem MissingIn.sibling {phis : Phis} {step step' : Nat} {body : Body Op Fn} {text : CStmt Op Fn}
    (missing : MissingIn (inside (step' :: abs)) fn)
    (emitted : emitBody phis (step :: abs) body fn = some (text, fn')) (other : step ≠ step') :
    MissingIn (inside (step' :: abs)) fn' := by
  refine missing.advances (emitBody_advances body emitted) fun place isInside isBelow => ?_
  exact other (step_eq_of_below (inside_of_below isBelow) isInside)

omit [DecidableEq Op] in
theorem KnownAround.not_below {place : Abs} {i : Nat} (around' : KnownAround known abs)
    (member : .param place i ∈ known) : ¬ Backend.below abs place := by
  intro isBelow
  obtain ⟨step, isInside⟩ := isBelow
  exact not_below_self (isInside.trans (around'.param member))

omit [DecidableEq Op] in
theorem Tracks.beside (tracks : Tracks known (around abs) fn) (around' : KnownAround known abs)
    (advances : Advances (Backend.below abs) (around abs) fn fn') : Tracks known (around abs) fn' :=
  tracks.advances advances fun _ _ => around'.not_below

omit [DecidableEq Op] in
theorem Tracks.child {step : Nat} (tracks : Tracks known (around abs) fn) :
    Tracks known (properlyAround (step :: abs)) fn where
  ready := tracks.ready
  missing := tracks.missing
  closed := tracks.closed
  opens place proper := tracks.opens place ((List.suffix_cons_iff.mp proper.1).resolve_left proper.2)

omit [DecidableEq Op] in
/-- In the text of a tail its own parameters are missing. -/
theorem Tracks.tail {outer : Abs → Prop} {yields : Nat} (tracks : Tracks known outer fn)
    (missing : MissingIn (inside (2 :: abs)) fn) :
    Tracks (known ++ paramsOf (2 :: abs) yields) outer fn where
  ready v member free := by
    cases List.mem_append.mp member with
    | inl before => exact tracks.ready v before free
    | inr param =>
        obtain ⟨i, -, rfl⟩ := List.mem_map.mp param
        cases free
  missing place i member := by
    cases List.mem_append.mp member with
    | inl before => exact tracks.missing place i before
    | inr param =>
        obtain ⟨j, -, same⟩ := List.mem_map.mp param
        cases same
        exact missing _ i (List.suffix_refl _)
  closed := tracks.closed
  opens := tracks.opens

/-- In the text of a loop the variables stand for the parameters. -/
theorem Tracks.loop {xs : List Nat} (tracks : Tracks known (around abs) fn)
    (around' : KnownAround known abs) :
    Tracks (known ++ paramsOf (0 :: abs) xs.length) (around abs)
      (FnEmitter.registerParams (0 :: abs) 0 xs fn) := by
  have before : Tracks known (around abs) (FnEmitter.registerParams (0 :: abs) 0 xs fn) :=
    tracks.beside around' advances_params
  refine ⟨fun v member free => ?_, fun place i member => ?_, before.closed, before.opens⟩
  · cases List.mem_append.mp member with
    | inl old => exact before.ready v old free
    | inr param =>
        obtain ⟨i, inRange, rfl⟩ := List.mem_map.mp param
        have named := registerParams_found (0 :: abs) xs 0 fn (List.getElem?_eq_getElem (List.mem_range.mp inRange))
        rw [Nat.zero_add] at named
        rw [named]
        exact Option.some_ne_none _
  · cases List.mem_append.mp member with
    | inl old => exact before.missing place i old
    | inr param =>
        obtain ⟨j, -, same⟩ := List.mem_map.mp param
        cases same

/-- The emission of a body succeeds when it spells no parameter of a tail. -/
def BodyEmitted (body : Body Op Fn) : Prop :=
  ∀ {phis : Phis} {widths : Widths} {known : List (Value Op)} {abs : Abs} {fn : FnEmitter Op Fn},
    KnownAround known abs → Tracks known (properlyAround abs) fn → MissingIn (below abs) fn →
    phis.Fits widths → body.wellScoped widths known abs = true →
    ((emitBody phis abs body fn).isSome = true ↔ ∀ v ∈ body.values, v.tailFree = true)

def TerminatorEmitted (t : Terminator Op Fn) : Prop :=
  ∀ {phis : Phis} {widths : Widths} {known : List (Value Op)} {abs : Abs} {fn : FnEmitter Op Fn},
    KnownAround known abs → Tracks known (around abs) fn → MissingIn (below abs) fn →
    phis.Fits widths → t.wellScoped widths known abs = true →
    ((emitTerminator phis abs t fn).isSome = true ↔ ∀ v ∈ t.values, v.tailFree = true)

theorem Body.emitted_of {instrs : List (Instr Op Fn)} {t : Terminator Op Fn}
    (ofTerminator : TerminatorEmitted t) : BodyEmitted (.mk instrs t) := by
  intro phis widths known abs fn around' tracks missing fits inScope
  rw [Body.wellScoped, Bool.and_eq_true] at inScope
  have opened : Tracks known (around abs) (fn.openPrinter abs) := by
    refine ⟨tracks.ready, tracks.missing, tracks.closed, fun place outer => ?_⟩
    by_cases here : place = abs
    · exact here ▸ openPrinter_isOpen
    · exact advances_openPrinter.opens place trivial (tracks.opens place ⟨outer, here⟩)
  obtain ⟨chain, after⟩ := emitMem_isSome instrs around' opened inScope.1
  have known' := around'.append (instrsWellScoped_around instrs around' inScope.1).2
  rw [emitBody, Body.values, List.forall_mem_append, ← and_true (∀ v ∈ t.values, v.tailFree = true)]
  refine isSome_bind_iff chain fun chained ofChain => ?_
  have tracks' := after chained ofChain
  have missing' := (missing.grows advances_openPrinter).grows (emitMem_advances instrs ofChain).1
  refine isSome_bind_iff (ofTerminator known' tracks' missing' fits inScope.2) fun ended ofEnd => ?_
  have isOpen := (emitTerminator_advances t ofEnd).opens abs (List.suffix_refl abs)
    (tracks'.opens abs (List.suffix_refl abs))
  rw [FnEmitter.closePrinter, Option.isSome_map, iff_true, Option.isSome_iff_ne_none]
  exact isOpen

omit [DecidableEq Op] in
theorem print_succeeds (isOpen : fn.IsOpen abs) (text : CStmt Op Fn) :
    ∃ printed, fn.print abs text = some printed :=
  Option.isSome_iff_exists.mp (print_isSome.mpr isOpen)

/-- The end of a construct is always printed. -/
theorem tail_isSome {xs : List Nat} {construct tail : CStmt Op Fn} (isOpen : fn.IsOpen abs) :
    ((fn.print abs construct).bind fun fn =>
      (FnEmitter.registerParams (2 :: abs) 0 xs fn).print abs tail).isSome = true := by
  obtain ⟨printed, ofConstruct⟩ := print_succeeds isOpen construct
  rw [ofConstruct, Option.bind_some]
  exact print_isSome.mpr ((advances_registerParams xs 0 printed).opens abs trivial
    ((advances_print ofConstruct).opens abs trivial isOpen))

theorem Terminator.ret_emitted (args : Operands Op) : TerminatorEmitted (.ret args : Terminator Op Fn) := by
  intro phis widths known abs fn around' tracks missing fits inScope
  rw [emitTerminator, Terminator.values, ← Operands.tailFree_iff, ← and_true (args.tailFree = true)]
  refine isSome_bind_iff (emitOperands_isSome args around' tracks inScope) fun emitted ofArgs => ?_
  rw [iff_true]
  exact print_isSome.mpr ((emitOperands_advances args ofArgs).1.opens abs trivial
    (tracks.opens abs (List.suffix_refl abs)))

theorem Terminator.unreachable_emitted : TerminatorEmitted (.unreachable : Terminator Op Fn) := by
  intro phis widths known abs fn around' tracks missing fits inScope
  exact ⟨fun _ => nofun, fun _ => print_isSome.mpr (tracks.opens abs (List.suffix_refl abs))⟩

/-- A transfer with as many arguments as there are variables, and what is printed after it. -/
theorem transfer_emitted {args : Operands Op} {xs : List Nat} {label : Label}
    (counts : xs.length = args.toList.length) (around' : KnownAround known abs)
    (tracks : Tracks known (around abs) fn) (inScope : args.wellScoped known = true)
    {leave : FnEmitter Op Fn → Option (FnEmitter Op Fn)}
    (leaves : ∀ fn, fn.IsOpen abs → (leave fn).isSome = true) :
    ((emitTransfer abs xs args fn).bind fun fn => (fn.print abs (.mark label xs)).bind leave).isSome = true
      ↔ ∀ v ∈ args.toList, v.tailFree = true := by
  rw [← Operands.tailFree_iff, ← and_true (args.tailFree = true)]
  refine isSome_bind_iff (emitTransfer_isSome args counts around' tracks inScope) fun emitted ofArgs => ?_
  have isOpen := (emitTransfer_advances args ofArgs).opens abs trivial (tracks.opens abs (List.suffix_refl abs))
  obtain ⟨marked, ofMark⟩ := print_succeeds isOpen (.mark label xs)
  rw [ofMark, Option.bind_some, iff_true]
  exact leaves marked ((advances_print ofMark).opens abs trivial isOpen)

theorem Terminator.mergeSelection_emitted (args : Operands Op) :
    TerminatorEmitted (.mergeSelection args : Terminator Op Fn) := by
  intro phis widths known abs fn around' tracks missing fits inScope
  rw [Terminator.wellScoped, Bool.and_eq_true, decide_eq_true_iff] at inScope
  have emitted : ((emitTransfer abs phis.selection args fn).bind fun fn =>
      (fn.print abs (.mark .selection phis.selection)).bind some).isSome = true
        ↔ ∀ v ∈ args.toList, v.tailFree = true :=
    transfer_emitted (fits.selection _ inScope.2) around' tracks inScope.1 fun _ _ => rfl
  simpa only [Option.bind_fun_some, emitTerminator, Terminator.values] using emitted

theorem Terminator.mergeContinue_emitted (args : Operands Op) :
    TerminatorEmitted (.mergeContinue args : Terminator Op Fn) := by
  intro phis widths known abs fn around' tracks missing fits inScope
  rw [Terminator.wellScoped, Bool.and_eq_true, decide_eq_true_iff] at inScope
  exact transfer_emitted (fits.loopContinue _ inScope.2) around' tracks inScope.1
    fun _ isOpen => print_isSome.mpr isOpen

theorem Terminator.mergeBreak_emitted (args : Operands Op) :
    TerminatorEmitted (.mergeBreak args : Terminator Op Fn) := by
  intro phis widths known abs fn around' tracks missing fits inScope
  rw [Terminator.wellScoped, Bool.and_eq_true, decide_eq_true_iff] at inScope
  exact transfer_emitted (fits.loopBreak _ inScope.2) around' tracks inScope.1
    fun _ isOpen => print_isSome.mpr isOpen

def AlternativeEmitted (alternative : Alternative Op Fn) : Prop :=
  ∀ {phis : Phis} {widths : Widths} {yields : Nat} {known : List (Value Op)} {abs : Abs}
      {fn : FnEmitter Op Fn},
    KnownAround known abs → Tracks known (properlyAround abs) fn → MissingIn (below abs) fn →
    phis.Fits widths → alternative.wellScoped widths yields known abs = true →
    ((emitAlternative phis abs alternative fn).isSome = true ↔
      ∀ v ∈ alternative.values, v.tailFree = true)

theorem MissingIn.after_alternative {phis : Phis} {step step' : Nat} {text : CStmt Op Fn} :
    ∀ {alternative : Alternative Op Fn}, MissingIn (inside (step' :: abs)) fn →
      emitAlternative phis (step :: abs) alternative fn = some (text, fn') → step ≠ step' →
      MissingIn (inside (step' :: abs)) fn'
  | .absent, missing, emitted, _ => by
      cases emitted
      exact missing
  | .present _, missing, emitted, other => missing.sibling emitted other

theorem Terminator.ifThen_emitted {yields : Nat} {condition : Value Op} {ifTrue tail : Body Op Fn}
    {ifFalse : Alternative Op Fn} (ofTrue : BodyEmitted ifTrue) (ofFalse : AlternativeEmitted ifFalse)
    (ofTail : BodyEmitted tail) : TerminatorEmitted (.ifThen yields condition ifTrue ifFalse tail) := by
  intro phis widths known abs fn around' tracks missing fits inScope
  simp only [Terminator.wellScoped, Bool.and_eq_true] at inScope
  obtain ⟨⟨⟨scopedCondition, scopedTrue⟩, scopedFalse⟩, scopedTail⟩ := inScope
  have stages : (emitTerminator phis abs (.ifThen yields condition ifTrue ifFalse tail) fn).isSome = true ↔
      True ∧ (∀ v ∈ ifTrue.values, v.tailFree = true) ∧ (∀ v ∈ ifFalse.values, v.tailFree = true) ∧
        (∀ v ∈ tail.values, v.tailFree = true) ∧ condition.tailFree = true ∧ True := by
    refine isSome_bind_iff (iff_true_intro (declarePhis_isSome yields
      (tracks.opens abs (List.suffix_refl abs)))) fun declared ofPhis => ?_
    obtain ⟨grows, length⟩ := declarePhis_advances yields ofPhis
    have tracks₁ := tracks.grows grows
    have missing₁ := missing.grows grows
    have fits' := fits.select length
    refine isSome_bind_iff (ofTrue (around'.child 0) tracks₁.child missing₁.child.below fits' scopedTrue)
      fun trueBody ofEmitTrue => ?_
    have tracks₂ := tracks₁.beside around' (emitBody_below ifTrue ofEmitTrue)
    have missing₂ : ∀ step, step ≠ 0 → MissingIn (inside (step :: abs)) trueBody.2 :=
      fun step other => missing₁.child.sibling ofEmitTrue other.symm
    refine isSome_bind_iff (ofFalse (around'.child 1) tracks₂.child (missing₂ 1 (by decide)).below fits'
      scopedFalse) fun falseBody ofEmitFalse => ?_
    have tracks₃ := tracks₂.beside around' (emitAlternative_below ifFalse ofEmitFalse)
    have missing₃ := (missing₂ 2 (by decide)).after_alternative ofEmitFalse (by decide)
    refine isSome_bind_iff (ofTail ((around'.child 2).append (knownAround_paramsOf _ _))
      (tracks₃.child.tail missing₃) missing₃.below fits scopedTail) fun tailText ofEmitTail => ?_
    have tracks₄ := tracks₃.beside around' (emitBody_below tail ofEmitTail)
    refine isSome_bind_iff (emitValue_isSome condition around' tracks₄ scopedCondition)
      fun emitted ofCondition => iff_true_intro (tail_isSome ?_)
    exact (emitValue_advances condition ofCondition).1.opens abs trivial
      (tracks₄.opens abs (List.suffix_refl abs))
  rw [stages, Terminator.values, List.forall_mem_append, List.forall_mem_append, List.forall_mem_cons]
  tauto

theorem Terminator.loop_emitted {initialArgs : Operands Op} {yields : Nat} {body tail : Body Op Fn}
    (ofBody : BodyEmitted body) (ofTail : BodyEmitted tail) :
    TerminatorEmitted (.loop initialArgs yields body tail) := by
  intro phis widths known abs fn around' tracks missing fits inScope
  simp only [Terminator.wellScoped, Bool.and_eq_true] at inScope
  obtain ⟨⟨scopedArgs, scopedBody⟩, scopedTail⟩ := inScope
  have stages : (emitTerminator phis abs (.loop initialArgs yields body tail) fn).isSome = true ↔
      initialArgs.tailFree = true ∧ True ∧ (∀ v ∈ body.values, v.tailFree = true) ∧
        (∀ v ∈ tail.values, v.tailFree = true) ∧ True := by
    refine isSome_bind_iff (declareInitialised_isSome initialArgs around' tracks scopedArgs)
      fun params ofArgs => ?_
    obtain ⟨growsArgs, count⟩ := declareInitialised_advances initialArgs ofArgs
    have tracks₁ : Tracks (known ++ paramsOf (0 :: abs) params.1.length) (around abs)
        (FnEmitter.registerParams (0 :: abs) 0 params.1 params.2) := (tracks.grows growsArgs).loop around'
    have outer₁ : Tracks known (around abs) (FnEmitter.registerParams (0 :: abs) 0 params.1 params.2) :=
      (tracks.grows growsArgs).beside around' advances_params
    have around₁ : KnownAround (known ++ paramsOf (0 :: abs) params.1.length) (0 :: abs) :=
      (around'.child 0).append (knownAround_paramsOf _ _)
    have missing₁ : ∀ place i, below abs place → place ≠ 0 :: abs →
        (FnEmitter.registerParams (0 :: abs) 0 params.1 params.2).emittedTerms (.param place i) = none :=
      fun place i isBelow other => (advances_registerParams params.1 0 params.2).params place i other
        (missing.grows growsArgs place i isBelow)
    refine isSome_bind_iff (iff_true_intro (declarePhis_isSome yields
      (outer₁.opens abs (List.suffix_refl abs)))) fun declared ofPhis => ?_
    obtain ⟨grows, length⟩ := declarePhis_advances yields ofPhis
    have inBody : MissingIn (below (0 :: abs)) declared.2 := by
      refine MissingIn.grows (fun place i isBelow => missing₁ place i ?_ ?_) grows
      · exact below_of_inside (inside_of_below isBelow)
      · exact fun same => not_below_abs (same ▸ isBelow)
    have inTail : MissingIn (inside (2 :: abs)) declared.2 := by
      refine MissingIn.grows (fun place i isInside => missing₁ place i ⟨2, isInside⟩ ?_) grows
      intro same
      rw [inside, same] at isInside
      exact absurd (step_eq_of_below isInside (List.suffix_refl (0 :: abs))) (by decide)
    have fits' : Phis.Fits { phis with loopContinue := params.1, loopBreak := declared.1 }
        { widths with loopContinue := some initialArgs.toList.length, loopBreak := some yields } :=
      ⟨fits.selection, fun _ same => count.trans (Option.some.inj same),
        fun _ same => length.trans (Option.some.inj same)⟩
    rw [← count] at scopedBody fits'
    refine isSome_bind_iff (ofBody around₁ (tracks₁.grows grows).child inBody fits' scopedBody)
      fun bodyText ofEmitBody => ?_
    have tracks₂ := (outer₁.grows grows).beside around' (emitBody_below body ofEmitBody)
    have missing₂ := inTail.sibling ofEmitBody (by decide)
    refine isSome_bind_iff (ofTail ((around'.child 2).append (knownAround_paramsOf _ _))
      (tracks₂.child.tail missing₂) missing₂.below fits scopedTail) fun tailText ofEmitTail => ?_
    have tracks₃ := tracks₂.beside around' (emitBody_below tail ofEmitTail)
    exact iff_true_intro (tail_isSome (tracks₃.opens abs (List.suffix_refl abs)))
  rw [stages, Terminator.values, List.forall_mem_append, List.forall_mem_append, ← Operands.tailFree_iff]
  tauto

def CasesEmitted (cases : Cases Op Fn) : Prop :=
  ∀ {phis : Phis} {widths : Widths} {known : List (Value Op)} {abs : Abs} {step : Nat}
      {fn : FnEmitter Op Fn},
    KnownAround known abs → Tracks known (around abs) fn →
    (∀ later, step ≤ later → MissingIn (inside (later :: abs)) fn) →
    phis.Fits widths → cases.wellScoped widths known abs step = true →
    ((emitCases phis abs step cases fn).isSome = true ↔ ∀ v ∈ cases.values, v.tailFree = true)

theorem Cases.cons_emitted {literal : Nat} {body : Body Op Fn} {rest : Cases Op Fn}
    (ofBody : BodyEmitted body) (ofRest : CasesEmitted rest) : CasesEmitted (.cons literal body rest) := by
  intro phis widths known abs step fn around' tracks missing fits inScope
  rw [Cases.wellScoped, Bool.and_eq_true] at inScope
  have free : (Value.literal literal : Value Op).tailFree = true := rfl
  rw [emitCases, Cases.values, List.forall_mem_append, List.forall_mem_cons, and_assoc]
  refine isSome_bind_iff (emitValue_isSome (.literal literal) around' tracks rfl)
    fun emitted ofLiteral => ?_
  have grows := (emitValue_advances (.literal literal) ofLiteral).1
  have tracks₁ := tracks.grows grows
  refine isSome_bind_iff (ofBody (around'.child step) tracks₁.child
    ((missing step (le_refl _)).grows grows).below fits inScope.1) fun text ofText => ?_
  rw [Option.isSome_map]
  refine ofRest around' (tracks₁.beside around' (emitBody_below body ofText)) (fun later after => ?_) fits
    inScope.2
  exact ((missing later (by omega)).grows grows).sibling ofText (by omega)

theorem Terminator.matchOn_emitted {yields : Nat} {inspect : Value Op} {cases : Cases Op Fn}
    {defaultCase tail : Body Op Fn} (ofCases : CasesEmitted cases) (ofDefault : BodyEmitted defaultCase)
    (ofTail : BodyEmitted tail) : TerminatorEmitted (.matchOn yields inspect cases defaultCase tail) := by
  intro phis widths known abs fn around' tracks missing fits inScope
  simp only [Terminator.wellScoped, Bool.and_eq_true] at inScope
  obtain ⟨⟨⟨scopedInspect, scopedDefault⟩, scopedTail⟩, scopedCases⟩ := inScope
  have stages : (emitTerminator phis abs (.matchOn yields inspect cases defaultCase tail) fn).isSome = true ↔
      True ∧ inspect.tailFree = true ∧ (∀ v ∈ defaultCase.values, v.tailFree = true) ∧
        (∀ v ∈ tail.values, v.tailFree = true) ∧ (∀ v ∈ cases.values, v.tailFree = true) ∧ True := by
    refine isSome_bind_iff (iff_true_intro (declarePhis_isSome yields
      (tracks.opens abs (List.suffix_refl abs)))) fun declared ofPhis => ?_
    obtain ⟨grows, length⟩ := declarePhis_advances yields ofPhis
    have tracks₁ := tracks.grows grows
    have fits' := fits.select length
    refine isSome_bind_iff (emitValue_isSome inspect around' tracks₁ scopedInspect)
      fun inspectee ofInspect => ?_
    have growsInspect := (emitValue_advances inspect ofInspect).1
    have tracks₂ := tracks₁.grows growsInspect
    have missing₂ := (missing.grows grows).grows growsInspect
    refine isSome_bind_iff (ofDefault (around'.child 0) tracks₂.child missing₂.child.below fits'
      scopedDefault) fun defaultBody ofEmitDefault => ?_
    have tracks₃ := tracks₂.beside around' (emitBody_below defaultCase ofEmitDefault)
    have missing₃ : ∀ step, step ≠ 0 → MissingIn (inside (step :: abs)) defaultBody.2 :=
      fun step other => missing₂.child.sibling ofEmitDefault other.symm
    have inTail := missing₃ 2 (by decide)
    refine isSome_bind_iff (ofTail ((around'.child 2).append (knownAround_paramsOf _ _))
      (tracks₃.child.tail inTail) inTail.below fits scopedTail) fun tailText ofEmitTail => ?_
    have tracks₄ := tracks₃.beside around' (emitBody_below tail ofEmitTail)
    have missing₄ : ∀ later, 3 ≤ later → MissingIn (inside (later :: abs)) tailText.2 :=
      fun later after => (missing₃ later (by omega)).sibling ofEmitTail (by omega)
    refine isSome_bind_iff (ofCases around' tracks₄ missing₄ fits' scopedCases)
      fun bodies ofEmitCases => iff_true_intro (tail_isSome ?_)
    exact (emitCases_advances cases ofEmitCases).opens abs (List.suffix_refl abs)
      (tracks₄.opens abs (List.suffix_refl abs))
  rw [stages, Terminator.values, List.forall_mem_append, List.forall_mem_append, List.forall_mem_cons]
  tauto

mutual
theorem Body.emitted : ∀ body : Body Op Fn, BodyEmitted body
  | .mk _ terminator => Body.emitted_of (Terminator.emitted terminator)
theorem Terminator.emitted : ∀ t : Terminator Op Fn, TerminatorEmitted t
  | .ret args => Terminator.ret_emitted args
  | .unreachable => Terminator.unreachable_emitted
  | .ifThen _ _ ifTrue ifFalse tail =>
      Terminator.ifThen_emitted (Body.emitted ifTrue) (Alternative.emitted ifFalse) (Body.emitted tail)
  | .matchOn _ _ cases defaultCase tail =>
      Terminator.matchOn_emitted (Cases.emitted cases) (Body.emitted defaultCase) (Body.emitted tail)
  | .loop _ _ body tail => Terminator.loop_emitted (Body.emitted body) (Body.emitted tail)
  | .mergeSelection args => Terminator.mergeSelection_emitted args
  | .mergeContinue args => Terminator.mergeContinue_emitted args
  | .mergeBreak args => Terminator.mergeBreak_emitted args
theorem Alternative.emitted : ∀ alternative : Alternative Op Fn, AlternativeEmitted alternative
  | .absent => fun _ _ _ _ _ => ⟨fun _ => nofun, fun _ => rfl⟩
  | .present body => fun around' tracks missing fits inScope =>
      Body.emitted body around' tracks missing fits inScope
theorem Cases.emitted : ∀ cases : Cases Op Fn, CasesEmitted cases
  | .nil => fun _ _ _ _ _ => ⟨fun _ => nofun, fun _ => rfl⟩
  | .cons _ body rest => Cases.cons_emitted (Body.emitted body) (Cases.emitted rest)
end

/-- A well-formed function is emitted if and only if it spells no parameter of a tail. -/
theorem emitFunction_isSome {f : Function Op Fn} (wellFormed : f.wellFormed = true) :
    (emitFunction f).isSome = true ↔ f.tailFree = true := by
  have noParam : ∀ place i, place ≠ [] →
      (FnEmitter.start f.params : FnEmitter Op Fn).emittedTerms (.param place i) = none :=
    fun place i other =>
      (advances_registerParams (List.range f.params) 0 _).params place i other rfl
  have tracks : Tracks (paramsOf [] f.params) (properlyAround []) (FnEmitter.start f.params : FnEmitter Op Fn) := by
    refine ⟨fun v member _ => ?_, fun place i _ => noParam _ i (List.cons_ne_nil _ _), ?_, ?_⟩
    · obtain ⟨i, inRange, rfl⟩ := List.mem_map.mp member
      have atName : (List.range f.params)[i]? = some i := List.getElem?_range (List.mem_range.mp inRange)
      have named := registerParams_found [] _ 0
        (⟨fun _ => none, fun _ => none, f.params⟩ : FnEmitter Op Fn) atName
      rw [Nat.zero_add] at named
      rw [FnEmitter.start, named]
      exact Option.some_ne_none _
    · exact (advances_registerParams (List.range f.params) 0 _).closed nofun
    · exact fun place proper => absurd (List.suffix_nil.mp proper.1) proper.2
  have missing : MissingIn (below []) (FnEmitter.start f.params : FnEmitter Op Fn) :=
    fun place i isBelow => noParam place i fun same => not_below_abs (same ▸ isBelow)
  have fits : Phis.Fits ⟨[], [], []⟩ ⟨none, none, none⟩ := ⟨nofun, nofun, nofun⟩
  rw [emitFunction, Option.isSome_map, Function.tailFree, List.all_eq_true]
  exact Body.emitted f.body (knownAround_paramsOf [] f.params) tracks missing fits wellFormed

end Induction

end Shady.Backend
