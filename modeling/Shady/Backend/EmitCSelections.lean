import Shady.Backend.EmitCNested

/-!
# Selections

If and Match: one of the bodies is chosen as the run chooses it, and the parameters of the
tail are the variables that the bodies assign to.
-/

set_option autoImplicit false

namespace Shady.Backend

open Imperative

section Selections
variable {Op Fn Word Mem : Type} [DecidableEq Op] [DecidableEq Word]
variable {m : Machine Op (Effect Fn) Word Mem} {fuel : Nat}
variable {fn d e last : FnEmitter Op Fn} {abs head : Abs} {phis : Phis}

omit [DecidableEq Op] [DecidableEq Word] in
/-- Names that were declared stand for nothing. -/
theorem declarePhis_unused (wf : fn.Wf) {count : Nat} {xs : List Nat}
    (declared : declarePhis abs count fn = some (xs, d)) :
    ∀ x ∈ xs, d.Unused x ∧ fn.uniqueName ≤ x := by
  obtain ⟨terms, -, between, -⟩ := declarePhis_names count declared
  intro x member
  refine ⟨⟨(between x member).2, fun v bound => ?_⟩, (between x member).1⟩
  rw [terms] at bound
  have old := wf.named v x bound
  have recent := (between x member).1
  omega

omit [DecidableEq Op] [DecidableEq Word] in
theorem FnEmitter.ClearBelow.of_terms (clear : fn.ClearBelow abs)
    (terms : d.emittedTerms = fn.emittedTerms) : d.ClearBelow abs := by
  intro step v term found
  rw [terms] at found
  exact clear step v term found

/-- The end of a construct: it is printed, and its tail after it. -/
theorem construct_closes {vs ws us : List (Value Op)} {xs : List Nat} {construct tail : CStmt Op Fn}
    {b b' printed : FnEmitter Op Fn}
    {tailRun : Config Fn Word Mem → Option (Outcome Word × Config Fn Word Mem)} (wf : fn.Wf)
    (clear : fn.ClearBelow abs) (ok : PhisOk phis head fn)
    (entered : Emits m fuel abs (fun place => abs <:+ place) ws fn d)
    (unused : ∀ x ∈ xs, d.Unused x ∧ fn.uniqueName ≤ x) (nodup : xs.Nodup)
    (emits : Emits m fuel abs (below abs) vs d e)
    (body : EmitsBody m fuel phis (2 :: abs) us tailRun b b' tail) (clearTail : b.Clear (2 :: abs))
    (before : Extends d.emittedTerms b.emittedTerms) (after : Extends b'.emittedTerms e.emittedTerms)
    (missing : ∀ j, e.emittedTerms (.param (2 :: abs) j) = none)
    (wasPrinted : e.print abs construct = some printed)
    (closed : (FnEmitter.registerParams (2 :: abs) 0 xs printed).print abs tail = some last) :
    Closes m fuel abs xs (ws ++ vs) construct tail fn e last ∧
      TailOk m fuel phis abs xs tailRun tail fn e last := by
  have whole := entered.trans emits.of_below
  have closes := whole.closes missing
    (fun x member => ⟨emits.unused (unused x member).1, (unused x member).2⟩) nodup wasPrinted closed
  refine ⟨closes, emits.wf, closes.grows, ?_, ?_, ?_, ?_, ?_⟩
  · exact ⟨us, b, b', body, clearTail, entered.grows.trans before, after⟩
  · exact fun x member => (emits.unused (unused x member).1).2
  · intro x member
    obtain ⟨i, bound⟩ := closes.named x member
    exact ⟨_, ⟨(clear 2).param i, bound⟩, List.suffix_cons 2 abs⟩
  · intro x member inAll
    have old := ok.lt wf inAll
    have recent := (unused x member).2
    omega
  · exact fun x member => whole.not_named (ok.lt wf member)

omit [DecidableEq Op] in
/-- Declarations change nothing that is right. -/
theorem Closes.outer_declared {xs ys : List Nat} {vs : List (Value Op)} {construct tail : CStmt Op Fn}
    {env : Env Word} {vars vars' : Vars Word}
    (closes : Closes m fuel abs xs vs construct tail fn e last)
    (outer : Right m last.emittedTerms env heldAlways (properlyAround abs) vars)
    (kept : ∀ x, (∀ v, last.emittedTerms v = some (.var x) → ¬ below abs v.home) → x ∉ ys →
      vars' x = vars x)
    (named : ∀ x ∈ ys, x ∈ xs ∨ ∃ i, last.emittedTerms (.param (0 :: abs) i) = some (.var x)) :
    Right m last.emittedTerms env heldAlways (properlyAround abs) vars' := by
  have wf := closes.emits.wf
  intro v x bound home holds
  obtain ⟨word, value, stored⟩ := outer v x bound home holds
  refine ⟨word, value, ?_⟩
  rw [kept x]
  · exact stored
  · intro u bound' isBelow
    rw [wf.distinct u v x bound' bound] at isBelow
    exact not_below_of_around home.1 (List.suffix_refl _) isBelow
  · intro member
    have elsewhere : ∀ step i, last.emittedTerms (.param (step :: abs) i) ≠ some (.var x) := by
      intro step i param
      have same := wf.distinct v _ x bound param
      rw [same] at home
      exact not_below_self home.1
    rcases named x member with inXs | inParams
    · obtain ⟨i, param⟩ := closes.named x inXs
      exact elsewhere 2 i param
    · obtain ⟨i, param⟩ := inParams
      exact elsewhere 0 i param

omit [DecidableEq Op] in
/-- A body of one abstraction leaves the parameters of its sibling unregistered. -/
theorem Emits.sibling_missing {vs : List (Value Op)} {step step' i : Nat} {fn' : FnEmitter Op Fn}
    (emits : Emits m fuel (step :: abs) (fun place => (step :: abs) <:+ place) vs fn fn')
    (other : step ≠ step') (missing : fn.emittedTerms (.param (step' :: abs) i) = none) :
    fn'.emittedTerms (.param (step' :: abs) i) = none :=
  emits.param_missing (fun inside => other (step_eq_of_below inside (List.suffix_refl _))) missing

/-- A selection: its variables are declared, what was hoisted runs, and the construct with its
    tail after it. -/
theorem selection_runs {vs : List (Value Op)} {yields : Nat} {xs : List Nat}
    {construct tail : CStmt Op Fn}
    {tailRun : Config Fn Word Mem → Option (Outcome Word × Config Fn Word Mem)} (wf : fn.Wf)
    (ok : PhisOk phis head fn) (ofPhis : declarePhis abs yields fn = some (xs, d))
    (emits : Emits m fuel abs (below abs) vs d e)
    (closes : Closes m fuel abs xs ([] ++ vs) construct tail fn e last)
    (tailOk : TailOk m fuel phis abs xs tailRun tail fn e last) :
    Prints abs fn last fun text =>
      ∀ (env : Env Word) (vars : Vars Word) (world : World (Effect Fn) Label Word Mem)
          (earlier now direct : List (Value Op)) (first : Option (Outcome Word × Config Fn Word Mem))
          (out : Outcome Word) (c' : Config Fn Word Mem),
        (∀ u ∈ subtermsOf earlier, fn.emittedTerms u ≠ none) →
        Right m last.emittedTerms env heldAlways (properlyAround abs) vars →
        Right m fn.emittedTerms env heldAlways (· = abs) vars → phis.Declared vars →
        steadyAt m heldAlways env world.mem abs earlier now direct = true → vs ⊆ now →
        (∀ varsD, ConstructAnswers m fuel phis abs xs fn d e env varsD world first construct) →
        first.bind (afterSelection tailRun abs) = some (out, c') →
        ∃ vars', (Stmt.block text).exec m fuel ⟨vars, world⟩ = some (out.signal, ⟨vars', c'.world⟩) ∧
          Ends phis (fun place => abs <:+ place) fn last vars out vars' := by
  obtain ⟨terms, -, -, -⟩ := declarePhis_names yields ofPhis
  obtain ⟨entered, printsD⟩ := declarePhis_runs m fuel yields wf ofPhis
  have unused := declarePhis_unused wf ofPhis
  have hoisted := tailOk.hoisted entered.grows emits closes.prints entered.later fun x member =>
    ok.lt wf member
  refine (printsD.trans hoisted).mono ?_
  rintro text ⟨first, second, rfl, doesD, does⟩
  intro env vars world earlier now direct chosen out c' known outer own declared steady needed answered ran
  obtain ⟨varsD, execD, isDeclared, others⟩ := doesD vars world
  have ownD : Right m d.emittedTerms env heldAlways (· = abs) varsD := by
    intro v x bound home holds
    rw [terms] at bound
    have apart : x ∉ xs := fun member => (unused x member).1.2 v (terms ▸ bound)
    rw [others x apart]
    exact own v x bound home holds
  have outerD := closes.outer_declared outer (fun x _ other => others x other)
    fun x member => .inl member
  have declaredD : phis.Declared varsD := declared.of_kept fun x member =>
    others x fun inXs => tailOk.apart x inXs member
  obtain ⟨vars', exec, ends⟩ := does env varsD world earlier now direct chosen out c' (terms ▸ known)
    outerD ownD declaredD isDeclared steady needed (answered varsD) ran
  refine ⟨vars', ?_, ends.passed, fun x untouched unnamed => ?_⟩
  · rw [exec_append_normal m fuel execD]
    exact exec
  · rw [ends.kept x untouched unnamed]
    exact others x fun member => unnamed (tailOk.named x member)

variable (m fuel) in
def AlternativeCorrect (alternative : Alternative Op Fn) : Prop :=
  ∀ {phis : Phis} {head abs : Abs} {fn fn' : FnEmitter Op Fn} {text : CStmt Op Fn}, fn.Wf →
    fn.Untouched abs → alternative.Regular abs → PhisOk phis head fn →
    emitAlternative phis abs alternative fn = some (text, fn') →
    EmitsBody m fuel phis abs alternative.values (alternative.run m true fuel head abs) fn fn' text

theorem Alternative.absent_correct : AlternativeCorrect m fuel (.absent : Alternative Op Fn) := by
  intro phis head abs fn fn' text wf untouched regular ok emitted
  cases emitted
  refine ⟨Emits.refl _ _ wf, fun i missing => missing, ?_⟩
  intro env vars world out c' outer own declared ran
  cases ran
  exact ⟨vars, rfl, nofun, fun _ _ _ => rfl⟩

/-! ## If -/

theorem Terminator.ifThen_correct {yields : Nat} {condition : Value Op} {ifTrue : Body Op Fn}
    {ifFalse : Alternative Op Fn} {tail : Body Op Fn} (ofTrue : BodyCorrect m fuel ifTrue)
    (ofFalse : AlternativeCorrect m fuel ifFalse) (ofTail : BodyCorrect m fuel tail) :
    TerminatorCorrect m fuel (.ifThen yields condition ifTrue ifFalse tail) := by
  intro phis head abs fn last wf clear regular ok emitted
  simp only [emitTerminator, Option.bind_eq_some_iff] at emitted
  obtain ⟨⟨xs, d⟩, ofPhis, ⟨yes, b₁⟩, ofYes, ⟨no, b₂⟩, ofNo, ⟨tailText, b₃⟩, ofTail', ⟨term, e⟩,
    ofCondition, printed, wasPrinted, closed⟩ := emitted
  obtain ⟨terms, -, -, nodup⟩ := declarePhis_names yields ofPhis
  obtain ⟨entered, -⟩ := declarePhis_runs m fuel yields wf ofPhis
  have unused := declarePhis_unused wf ofPhis
  have okD : PhisOk phis head d := entered.phisOk ok
  have okXs : PhisOk { phis with selection := xs } head d :=
    ⟨fun x member => (unused x member).1, nodup, okD.loopBreak, okD.loopBreak_nodup, okD.loopContinue⟩
  have clearD : d.ClearBelow abs := clear.of_terms terms
  have bodyYes := ofTrue entered.wf (clearD 0).untouched regular.2.1 okXs ofYes
  have clear₁ : b₁.Clear (1 :: abs) := bodyYes.emits.clear_sibling (by decide) (clearD 1)
  have bodyNo := ofFalse bodyYes.emits.wf clear₁.untouched regular.2.2.1
    (bodyYes.emits.phisOk okXs) ofNo
  have clear₂ : b₂.Clear (2 :: abs) := bodyNo.emits.clear_sibling (by decide)
    (bodyYes.emits.clear_sibling (by decide) (clearD 2))
  have bodyTail := ofTail bodyNo.emits.wf clear₂.untouched regular.2.2.2
    (bodyNo.emits.phisOk (bodyYes.emits.phisOk okD)) ofTail'
  obtain ⟨emitsCondition, found⟩ := emitValue_emits m fuel condition bodyTail.emits.wf regular.1 ofCondition
  have emits := ((bodyYes.emits.of_child.trans bodyNo.emits.of_child).trans
    bodyTail.emits.of_child).trans emitsCondition.of_value
  have missing : ∀ j, e.emittedTerms (.param (2 :: abs) j) = none := fun j =>
    emitsCondition.fixed_missing (bodyTail.params j (clear₂.param j)) id
  have grows₁ := bodyYes.emits.grows
  have grows₂ := bodyNo.emits.grows
  have grows₃ := bodyTail.emits.grows
  obtain ⟨closes, tailOk⟩ := construct_closes wf clear ok entered unused nodup emits bodyTail clear₂
    (grows₁.trans grows₂) emitsCondition.grows missing wasPrinted closed
  have listed : ifTrue.values ++ ifFalse.values ++ tail.values ++ [condition]
      ⊆ (Terminator.ifThen yields condition ifTrue ifFalse tail).values := by
    intro v member
    simp only [Terminator.values, List.mem_append, List.mem_cons, List.not_mem_nil,
      or_false] at member ⊢
    tauto
  refine ⟨?_, ?_, ?_⟩
  · exact closes.emits.mono _ _ (fun _ inside => inside) (subtermsOf_mono listed)
  · intro i absent
    refine closes.params i (emits.param_missing not_below_abs ?_)
    rw [terms]
    exact absent
  · refine (selection_runs wf ok ofPhis emits closes tailOk).mono fun text does => ?_
    intro env vars world earlier out c' known outer own declared steady ran
    rw [Terminator.run, Option.bind_eq_some_iff] at ran
    obtain ⟨word, value, ran⟩ := ran
    refine does env vars world earlier _ _ _ out c' known outer own declared steady listed ?_ ran
    intro varsD vars' right declaredXs _ _ out₁ c₁ ranFirst
    constructor
    · intro place outside
      split at ranFirst
      · exact Body.run_stays m true fuel ifTrue head (0 :: abs) _ out₁ c₁ ranFirst place
          fun inside => outside (below_of_inside inside)
      · exact Alternative.run_stays m true fuel ifFalse head (1 :: abs) _ out₁ c₁ ranFirst place
          fun inside => outside (below_of_inside inside)
    · obtain ⟨word', value', reads⟩ := Value.text_eval emits.wf right condition term found regular.1
        (steady_of_mem steady (List.mem_singleton_self condition))
      cases value.symm.trans value'
      have reads' : Cond.eval m vars' world.mem (.truth term) = some (m.truthy word) := by
        rw [Cond.eval, reads]
        rfl
      have ofYes : Answered m fuel _ abs fn e env vars' world _ yes :=
        bodyYes.answered (clearD 0) entered.grows
          ((grows₂.trans grows₃).trans emitsCondition.grows) right declaredXs
      have ofNo : Answered m fuel _ abs fn e env vars' world _ no :=
        bodyNo.answered clear₁ (entered.grows.trans grows₁)
          (grows₃.trans emitsCondition.grows) right declaredXs
      exact Answered.ifElse reads' ofYes ofNo declaredXs out₁ c₁ ranFirst

/-! ## Match -/

variable (m fuel) in
/-- How the bodies of a Match are emitted, and what the chain of comparisons with them does. -/
structure EmitsCases (phis : Phis) (head abs : Abs) (step : Nat) (cases : Cases Op Fn)
    (fn fn' : FnEmitter Op Fn) (bodies : List (Expr Op × CStmt Op Fn)) : Prop where
  emits : Emits m fuel abs (below abs) cases.values fn fn'
  params : ∀ other, other < step → ∀ i, fn.emittedTerms (.param (other :: abs) i) = none →
    fn'.emittedTerms (.param (other :: abs) i) = none
  nonempty : cases ≠ .nil → bodies ≠ []
  answered : ∀ (e₀ e : FnEmitter Op Fn) (env : Env Word) (vars : Vars Word)
      (world : World (Effect Fn) Label Word Mem) (inspectee : Expr Op) (word : Word)
      (otherwise : CStmt Op Fn) (defaultCase : Config Fn Word Mem → Option (Outcome Word × Config Fn Word Mem)),
    Extends e₀.emittedTerms fn.emittedTerms → Extends fn'.emittedTerms e.emittedTerms →
    Right m e.emittedTerms env heldAlways (around abs) vars → phis.Declared vars →
    inspectee.eval m vars world.mem = some word →
    Answered m fuel phis abs e₀ e env vars world defaultCase otherwise →
    Answered m fuel phis abs e₀ e env vars world
      (cases.run m true fuel head abs word step defaultCase) (matchChain inspectee otherwise bodies)

variable (m fuel) in
def CasesCorrect (cases : Cases Op Fn) : Prop :=
  ∀ {phis : Phis} {head abs : Abs} {step : Nat} {fn fn' : FnEmitter Op Fn}
      {bodies : List (Expr Op × CStmt Op Fn)}, fn.Wf →
    (∀ other, step ≤ other → fn.Clear (other :: abs)) → cases.Regular abs step → PhisOk phis head fn →
    emitCases phis abs step cases fn = some (bodies, fn') →
    EmitsCases m fuel phis head abs step cases fn fn' bodies

theorem Cases.nil_correct : CasesCorrect m fuel (.nil : Cases Op Fn) := by
  intro phis head abs step fn fn' bodies wf clear regular ok emitted
  cases emitted
  refine ⟨Emits.refl _ _ wf, fun _ _ _ missing => missing, fun other => absurd rfl other, ?_⟩
  intro e₀ e env vars world inspectee word otherwise defaultCase before after right declared reads answered
  exact answered

theorem Cases.cons_correct {literal : Nat} {body : Body Op Fn} {rest : Cases Op Fn}
    (ofBody : BodyCorrect m fuel body) (ofRest : CasesCorrect m fuel rest) :
    CasesCorrect m fuel (.cons literal body rest) := by
  intro phis head abs step fn fn' bodies wf clear regular ok emitted
  simp only [emitCases, Option.bind_eq_some_iff, Option.map_eq_some_iff] at emitted
  obtain ⟨⟨term, n⟩, ofLiteral, ⟨text, b⟩, ofBody', ⟨others, last⟩, ofRest', equal⟩ := emitted
  cases equal
  have within : (Value.literal literal : Value Op).Within abs := fun place member => by cases member
  obtain ⟨emitsLiteral, found⟩ := emitValue_emits m fuel (.literal literal) wf within ofLiteral
  have spelled : term = .literal literal := emitsLiteral.wf.shaped _ _ found
  have okN := emitsLiteral.phisOk ok
  have clearN : ∀ other, step ≤ other → n.Clear (other :: abs) := fun other high =>
    emitsLiteral.clear_value (clear other high)
  have emitsBody := ofBody emitsLiteral.wf (clearN step le_rfl).untouched regular.1 okN ofBody'
  have emitsRest := ofRest emitsBody.emits.wf
    (fun other high => emitsBody.emits.clear_sibling (by omega) (clearN other (by omega))) regular.2
    (emitsBody.emits.phisOk okN) ofRest'
  refine ⟨(emitsLiteral.of_value.trans emitsBody.emits.of_child).trans emitsRest.emits, ?_, ?_, ?_⟩
  · intro other low i missing
    refine emitsRest.params other (by omega) i ?_
    exact emitsBody.emits.sibling_missing (by omega) (emitsLiteral.fixed_missing missing id)
  · exact fun _ => List.cons_ne_nil _ _
  · intro e₀ e env vars world inspectee word otherwise defaultCase before after right declared reads
      answered
    have ofThis : Answered m fuel phis abs e₀ e env vars world _ text :=
      emitsBody.answered (clearN step le_rfl) (before.trans emitsLiteral.grows)
        (emitsRest.emits.grows.trans after) right declared
    have ofOthers := emitsRest.answered e₀ e env vars world inspectee word otherwise defaultCase
      ((before.trans emitsLiteral.grows).trans emitsBody.emits.grows) after right declared reads answered
    have compared : Cond.eval m vars world.mem (.equal inspectee term)
        = some (decide (word = m.literal literal)) := by
      rw [Cond.eval, reads, spelled]
      rfl
    have both := Answered.ifElse compared ofThis ofOthers declared
    intro out c' ran
    refine both out c' ?_
    rw [Cases.run] at ran
    simpa only [decide_eq_true_eq] using ran

theorem Terminator.matchOn_correct {yields : Nat} {inspect : Value Op} {cases : Cases Op Fn}
    {defaultCase tail : Body Op Fn} (ofCases : CasesCorrect m fuel cases)
    (ofDefault : BodyCorrect m fuel defaultCase) (ofTail : BodyCorrect m fuel tail) :
    TerminatorCorrect m fuel (.matchOn yields inspect cases defaultCase tail) := by
  intro phis head abs fn last wf clear regular ok emitted
  simp only [emitTerminator, Option.bind_eq_some_iff] at emitted
  obtain ⟨⟨xs, d⟩, ofPhis, ⟨term, n⟩, ofInspect, ⟨other, b₁⟩, ofDefault', ⟨tailText, b₂⟩, ofTail',
    ⟨bodies, e⟩, ofCases', printed, wasPrinted, closed⟩ := emitted
  obtain ⟨inspectWithin, casesRegular, nonempty, defaultRegular, tailRegular⟩ := regular
  obtain ⟨terms, -, -, nodup⟩ := declarePhis_names yields ofPhis
  obtain ⟨entered, -⟩ := declarePhis_runs m fuel yields wf ofPhis
  have unused := declarePhis_unused wf ofPhis
  have okD : PhisOk phis head d := entered.phisOk ok
  have okXs : PhisOk { phis with selection := xs } head d :=
    ⟨fun x member => (unused x member).1, nodup, okD.loopBreak, okD.loopBreak_nodup, okD.loopContinue⟩
  have clearD : d.ClearBelow abs := clear.of_terms terms
  obtain ⟨emitsInspect, found⟩ := emitValue_emits m fuel inspect entered.wf inspectWithin ofInspect
  have clearN : n.ClearBelow abs := fun step => emitsInspect.clear_value (clearD step)
  have bodyDefault := ofDefault emitsInspect.wf (clearN 0).untouched defaultRegular
    (emitsInspect.phisOk okXs) ofDefault'
  have clear₁ : ∀ step, step ≠ 0 → b₁.Clear (step :: abs) := fun step other =>
    bodyDefault.emits.clear_sibling (Ne.symm other) (clearN step)
  have bodyTail := ofTail bodyDefault.emits.wf (clear₁ 2 (by decide)).untouched tailRegular
    (bodyDefault.emits.phisOk (emitsInspect.phisOk okD)) ofTail'
  have emitsCases := ofCases bodyTail.emits.wf
    (fun step high => bodyTail.emits.clear_sibling (by omega) (clear₁ step (by omega))) casesRegular
    (bodyTail.emits.phisOk (bodyDefault.emits.phisOk (emitsInspect.phisOk okXs))) ofCases'
  have emits := ((emitsInspect.of_value.trans bodyDefault.emits.of_child).trans
    bodyTail.emits.of_child).trans emitsCases.emits
  have missing : ∀ j, e.emittedTerms (.param (2 :: abs) j) = none := fun j =>
    emitsCases.params 2 (by decide) j (bodyTail.params j ((clear₁ 2 (by decide)).param j))
  have grows₁ := emitsInspect.grows
  have grows₂ := bodyDefault.emits.grows
  have grows₃ := bodyTail.emits.grows
  have grows₄ := emitsCases.emits.grows
  obtain ⟨closes, tailOk⟩ := construct_closes wf clear ok entered unused nodup emits bodyTail
    (clear₁ 2 (by decide)) (grows₁.trans grows₂) grows₄ missing wasPrinted closed
  have chain : printMatch term bodies other = matchChain term other bodies := by
    cases listed : bodies with
    | nil => exact absurd listed (emitsCases.nonempty nonempty)
    | cons first rest => rfl
  have listed : [inspect] ++ defaultCase.values ++ tail.values ++ cases.values
      ⊆ (Terminator.matchOn yields inspect cases defaultCase tail).values := fun v member => member
  refine ⟨?_, ?_, ?_⟩
  · exact closes.emits.mono _ _ (fun _ inside => inside) (subtermsOf_mono listed)
  · intro i absent
    refine closes.params i (emits.param_missing not_below_abs ?_)
    rw [terms]
    exact absent
  · refine (selection_runs wf ok ofPhis emits closes tailOk).mono fun text does => ?_
    intro env vars world earlier out c' known outer own declared steady ran
    rw [Terminator.run, Option.bind_eq_some_iff] at ran
    obtain ⟨word, value, ran⟩ := ran
    refine does env vars world earlier _ _ _ out c' known outer own declared steady listed ?_ ran
    intro varsD vars' right declaredXs _ _ out₁ c₁ ranFirst
    constructor
    · intro place outside
      refine Cases.run_stays m true fuel cases head abs word 3 _ _ ?_ out₁ c₁ ranFirst place outside
      intro out₂ c₂ ran₂ place₂ outside₂
      exact Body.run_stays m true fuel defaultCase head (0 :: abs) _ out₂ c₂ ran₂ place₂
        fun inside => outside₂ (below_of_inside inside)
    · have foundE : e.emittedTerms inspect = some term := ((grows₂.trans grows₃).trans grows₄) _ _ found
      obtain ⟨word', value', reads⟩ := Value.text_eval emits.wf right inspect term foundE inspectWithin
        (steady_of_mem steady (List.mem_singleton_self inspect))
      cases value.symm.trans value'
      have ofDefault : Answered m fuel _ abs fn e env vars' world _ other :=
        bodyDefault.answered (clearN 0) (entered.grows.trans grows₁) (grows₃.trans grows₄) right declaredXs
      have all := emitsCases.answered fn e env vars' world term word other _
        (((entered.grows.trans grows₁).trans grows₂).trans grows₃) (fun _ _ found => found) right
        declaredXs reads ofDefault
      change ∃ vars₁, (printMatch term bodies other).exec m fuel _ = _ ∧ _
      rw [chain]
      exact all out₁ c₁ ranFirst

end Selections

end Shady.Backend
