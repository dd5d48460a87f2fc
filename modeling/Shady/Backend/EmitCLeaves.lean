import Shady.Backend.EmitCBodies

/-!
# Bodies, returns and merges

A body is its chain and then its terminator. A terminator without a construct ends the
text: it returns, or it gives the variables of an enclosing construct the words of its
arguments.
-/

set_option autoImplicit false

namespace Shady.Backend

open Imperative

section Leaves
variable {Op Fn Word Mem : Type} [DecidableEq Op] [DecidableEq Word]
variable {m : Machine Op (Effect Fn) Word Mem} {fuel : Nat}
variable {fn fn' fn'' : FnEmitter Op Fn} {abs here head : Abs} {phis : Phis}

/-! ## Bodies -/

omit [DecidableEq Op] in
/-- Nothing is registered when only the printer of the abstraction has changed. -/
theorem Emits.of_printer {printers : Abs → Option (List (CStmt Op Fn))} (wf : fn.Wf)
    (same : ∀ place, place ≠ abs → printers place = fn.instructionPrinters place) :
    Emits m fuel abs (fun place => abs <:+ place) [] fn ⟨fn.emittedTerms, printers, fn.uniqueName⟩ where
  grows _ _ found := found
  later := le_refl _
  fresh _ _ registered := absurd registered not_registered_self
  names _ _ registered := absurd registered not_registered_self
  wf := ⟨wf.shaped, wf.named, wf.distinct, wf.placed⟩
  hoists place outside := by
    refine Hoists.quiet (fun _ _ found => found) (same place fun here => ?_)
      fun v x registered => absurd registered not_registered_self
    exact outside (here ▸ List.suffix_refl abs)

omit [DecidableEq Op] [DecidableEq Word] in
/-- What a parameter means does not depend on results. -/
theorem Right.own_of_params {env env' : Env Word} {vars : Vars Word} (untouched : fn.Untouched abs)
    (right : Right m fn.emittedTerms env heldAlways (· = abs) vars) (same : env'.params = env.params) :
    Right m fn.emittedTerms env' heldAlways (· = abs) vars := by
  intro v x bound home holds
  obtain ⟨i, param⟩ := untouched v _ bound (home ▸ List.suffix_refl abs)
  obtain ⟨word, value, stored⟩ := right v x bound home holds
  refine ⟨word, ?_, stored⟩
  rw [param, Value.eval] at value ⊢
  rw [same]
  exact value

omit [DecidableEq Op] [DecidableEq Word] in
theorem Phis.Declared.of_kept {vars vars' : Vars Word} (declared : phis.Declared vars)
    (kept : ∀ x ∈ phis.all, vars' x = vars x) : phis.Declared vars' := by
  intro x member
  rw [kept x member]
  exact declared x member

omit [DecidableEq Op] in
/-- The chain registers values of the abstraction and of those around it. -/
theorem EmitsChain.clearBelow {k count : Nat} {vs : List (Value Op)}
    (chain : EmitsChain m fuel abs k count vs fn fn') (clear : fn.ClearBelow abs) :
    fn'.ClearBelow abs := by
  intro step v term found inside
  cases before : fn.emittedTerms v with
  | none => exact not_below_self (inside.trans (chain.homes v term ⟨before, found⟩))
  | some old => exact clear step v old before inside

omit [DecidableEq Op] in
theorem EmitsChain.param_missing {k count i : Nat} {vs : List (Value Op)}
    (chain : EmitsChain m fuel abs k count vs fn fn')
    (missing : fn.emittedTerms (.param abs i) = none) : fn'.emittedTerms (.param abs i) = none := by
  cases found : fn'.emittedTerms (.param abs i) with
  | none => rfl
  | some term =>
      cases chain.kinds _ term ⟨missing, found⟩ with
      | inl floating => exact absurd floating id
      | inr own =>
          obtain ⟨j, -, -, load | result⟩ := own
          · obtain ⟨ptr, impossible⟩ := load
            cases impossible
          · cases result

omit [DecidableEq Op] [DecidableEq Word] in
theorem FnEmitter.Untouched.clearBelow (untouched : fn.Untouched abs) : fn.ClearBelow abs := by
  intro step v term found inside
  obtain ⟨i, param⟩ := untouched v term found ((List.suffix_cons step abs).trans inside)
  rw [param] at inside
  exact not_below_self inside

omit [DecidableEq Op] [DecidableEq Word] in
/-- The instructions of an untouched abstraction are not registered yet. -/
theorem FnEmitter.Untouched.instr_missing (wf : fn.Wf) (untouched : fn.Untouched abs) (j : Nat) :
    (∀ ptr, fn.emittedTerms (.load abs j ptr) = none) ∧ fn.emittedTerms (.result abs j) = none := by
  constructor
  · intro ptr
    cases found : fn.emittedTerms (.load abs j ptr) with
    | none => rfl
    | some term =>
        have inside := wf.placed _ term found abs (by simp [Value.places])
        obtain ⟨i, impossible⟩ := untouched _ term found inside
        cases impossible
  · cases found : fn.emittedTerms (.result abs j) with
    | none => rfl
    | some term =>
        obtain ⟨i, impossible⟩ := untouched _ term found (List.suffix_refl abs)
        cases impossible

/-- A body is answered when its terminator is. -/
theorem Terminator.body_correct {instrs : List (Instr Op Fn)} {t : Terminator Op Fn}
    (correct : TerminatorCorrect m fuel t) : BodyCorrect m fuel (.mk instrs t) := by
  intro phis head abs fn fn' text wf untouched regular ok emitted
  simp only [emitBody, Option.bind_eq_some_iff] at emitted
  obtain ⟨n₁, ofChain, n₂, ofTerminator, closed⟩ := emitted
  have opens : Emits m fuel abs (fun place => abs <:+ place) [] fn (fn.openPrinter abs) :=
    Emits.of_printer wf fun place other => Function.update_of_ne other _ _
  have missing := FnEmitter.Untouched.instr_missing wf untouched
  obtain ⟨chain, printsChain⟩ := emitMem_runs m fuel (k := 0) instrs opens.wf regular.1
    (fun j _ => missing j) ofChain
  have clearOpened : (fn.openPrinter abs).ClearBelow abs := untouched.clearBelow
  have clear : n₁.ClearBelow abs := chain.clearBelow clearOpened
  obtain ⟨emitsT, params, printsT⟩ := correct chain.emits.wf clear regular.2
    (chain.emits.phisOk (opens.phisOk ok)) ofTerminator
  have start : (fn.openPrinter abs).instructionPrinters abs = some [.mark (.body abs) []] :=
    Function.update_self _ _ _
  obtain ⟨first, open₁, performs⟩ := printsChain _ start
  obtain ⟨second, open₂, answers⟩ := printsT _ open₁
  rw [FnEmitter.closePrinter, open₂, Option.map_some, Option.some.injEq, Prod.mk.injEq] at closed
  obtain ⟨isText, isLast⟩ := closed
  have closes : Emits m fuel abs (fun place => abs <:+ place) [] n₂ fn' := by
    rw [← isLast]
    exact Emits.of_printer emitsT.wf fun place other => Function.update_of_ne other _ _
  have sameTerms : fn'.emittedTerms = n₂.emittedTerms := by rw [← isLast]
  have whole := ((opens.trans chain.emits).trans emitsT).trans closes
  refine ⟨?_, ?_, ?_⟩
  · refine whole.mono _ _ (fun _ inside => inside) ?_
    rw [Body.values, List.append_nil, List.nil_append]
    exact List.Subset.refl _
  · intro i absent
    rw [sameTerms]
    exact params i (chain.param_missing absent)
  · intro env vars world out c' outer own declared ran
    rw [Body.run, Option.bind_eq_some_iff] at ran
    obtain ⟨c₁, ranChain, ran⟩ := ran
    obtain ⟨steady, ranT⟩ := check_bind_eq_some.mp ran
    rw [sameTerms] at outer
    have outerEntered : Right m n₂.emittedTerms (env.setResults abs []) heldAlways
        (properlyAround abs) vars := by
      refine outer.congr _ emitsT.wf ?_
      intro place home proper inner
      refine ⟨rfl, Function.update_of_ne ?_ _ _⟩
      intro same
      exact proper.2 (suffix_antisymm proper.1 (same ▸ inner))
    have ownEntered : Right m fn.emittedTerms (env.setResults abs []) heldAlways (· = abs) vars :=
      own.own_of_params untouched rfl
    have noResults : ((env.setResults abs []).results abs).length = 0 := by simp [Env.setResults]
    obtain ⟨vars₁, execChain, performed, -⟩ := performs [] (env.setResults abs []) vars
      (world.record (.marked (.body abs) [])) c₁ (fun u member => by cases member)
      (outerEntered.mono emitsT.grows (fun _ _ h => h) (fun _ h => h)) ownEntered
      noResults ranChain
    have outer₁ : Right m n₂.emittedTerms c₁.env heldAlways (properlyAround abs) vars₁ := by
      refine (outerEntered.after emitsT.wf emitsT.grows not_properlyAround_self
        performed.only).congr _ emitsT.wf ?_
      intro place home proper inner
      refine performed.agrees place ?_
      intro same
      exact proper.2 (suffix_antisymm proper.1 (same ▸ inner))
    have declared₁ : phis.Declared vars₁ := by
      refine declared.of_kept fun x member => performed.only x fun v registered => ?_
      have recent := chain.emits.names v x registered
      have old : x < fn.uniqueName := ok.lt wf member
      exact absurd old (not_lt.mpr recent)
    have known : ∀ u ∈ subtermsOf ([] ++ chainValues instrs), n₁.emittedTerms u ≠ none :=
      known_append (chainValues instrs) chain.emits.wf chain.emits.grows (fun u member => by cases member)
        chain.listed
    obtain ⟨vars₂, execT, ends⟩ := answers c₁.env vars₁ c₁.world (chainValues instrs) out c' known
      outer₁ performed.own declared₁ steady ranT
    refine ⟨vars₂, ?_, ?_⟩
    · rw [← isText, List.append_assoc, List.singleton_append]
      change andThen (some (Signal.normal, (⟨vars, world.record (.marked (.body abs) [])⟩ : State _ _ _ _))) _ = _
      exact (exec_append_normal m fuel execChain).trans execT
    · have grows₁ : Extends fn.emittedTerms n₁.emittedTerms := chain.emits.grows
      have grows₂ : Extends n₂.emittedTerms fn'.emittedTerms := closes.grows
      have widened := ends.widen grows₁ grows₂ fun _ inside => inside
      refine ⟨widened.passed, fun x untouched' unnamed => ?_⟩
      rw [widened.kept x untouched' unnamed]
      refine performed.only x fun v registered home => unnamed ⟨v, ⟨registered.1, ?_⟩, ?_⟩
      · exact grows₂ _ _ (emitsT.grows _ _ registered.2)
      · exact home ▸ List.suffix_refl abs

/-! ## Returns -/

theorem Terminator.ret_correct (args : Operands Op) :
    TerminatorCorrect m fuel (.ret args : Terminator Op Fn) := by
  intro phis head abs fn fn' wf clear regular ok emitted
  rw [emitTerminator, Option.bind_eq_some_iff] at emitted
  obtain ⟨⟨texts, next⟩, ofOperands, printed⟩ := emitted
  obtain ⟨emits, -⟩ := emitOperands_emits m fuel args wf regular ofOperands
  have runs := emitOperands_runs m fuel wf regular ofOperands
  obtain ⟨terms, -, -, prints⟩ := print_eq_some printed
  refine ⟨(emits.mono (fun place => abs <:+ place) _ (fun _ h => h.elim)
    (List.Subset.refl _)).print (List.suffix_refl abs) printed, ?_, ?_⟩
  · intro i missing
    rw [terms]
    exact emits.fixed_missing missing id
  · refine (runs.trans prints).mono ?_
    rintro text ⟨first, second, rfl, does, rfl⟩
    intro env vars world earlier out c' known outer own declared steady ran
    rw [Terminator.run, Option.map_eq_some_iff] at ran
    obtain ⟨words, values, equal⟩ := ran
    cases equal
    obtain ⟨vars', words', ranFirst, -, -, only, values', reads⟩ :=
      does env heldAlways vars world earlier _ _ (terms ▸ outer) own steady (List.Subset.refl _)
        (List.Subset.refl _) known
    cases values.symm.trans values'
    refine ⟨vars', ?_, nofun, fun x _ unnamed => ?_⟩
    · rw [exec_append_normal m fuel ranFirst, exec_singleton, Stmt.exec, reads]
      rfl
    · refine only x fun v registered home => unnamed ⟨v, ⟨registered.1, ?_⟩, ?_⟩
      · rw [terms]
        exact registered.2
      · exact home ▸ List.suffix_refl abs

theorem Terminator.unreachable_correct :
    TerminatorCorrect m fuel (.unreachable : Terminator Op Fn) := by
  intro phis head abs fn fn' wf clear regular ok printed
  obtain ⟨terms, -, -, prints⟩ := print_eq_some printed
  refine ⟨(Emits.refl _ _ wf).print (List.suffix_refl abs) printed, ?_, ?_⟩
  · intro i missing
    rw [terms]
    exact missing
  · refine prints.mono fun text _ => ?_
    intro env vars world earlier out c' known outer own declared steady ran
    cases ran

/-! ## Merges -/

omit [DecidableEq Op] in
/-- The mark of a merge records the words that were assigned. -/
theorem mark_exec {label : Label} {xs : List Nat} {words : List Word}
    {vars : Vars Word} {world : World (Effect Fn) Label Word Mem} (holds : Holds vars xs words) :
    (Stmt.mark label xs : CStmt Op Fn).exec m fuel ⟨vars, world⟩
      = some (.normal, ⟨vars, world.record (.marked label words)⟩) := by
  have reads : (xs.mapM fun x => (vars x).join) = some words := by
    rw [Holds] at holds
    induction xs generalizing words with
    | nil =>
        cases words with
        | nil => rfl
        | cons word rest => cases holds
    | cons x xs ih =>
        cases words with
        | nil => cases holds
        | cons word rest =>
            rw [List.map_cons, List.map_cons, List.cons.injEq] at holds
            rw [List.mapM_cons, holds.1, ih holds.2]
            rfl
  rw [Stmt.exec, reads]
  rfl

variable (m fuel) in
/-- What a merge does: the arguments are assigned, the mark is passed, the text is left. -/
theorem transfer_correct (signal : Signal Word) (leaves : List (CStmt Op Fn)) {args : Operands Op}
    {xs : List Nat} {label : Label} {next : FnEmitter Op Fn} (wf : fn.Wf)
    (within : ∀ place ∈ args.places, place <:+ abs) (old : ∀ x ∈ xs, x < fn.uniqueName)
    (ofTransfer : emitTransfer abs xs args fn = some next)
    (terms : fn'.emittedTerms = next.emittedTerms)
    (prints : Prints abs next fn' (· = .mark label xs :: leaves))
    (leaving : ∀ st : State (Effect Fn) Label Word Mem,
      (Stmt.block leaves).exec m fuel st = some (signal, st)) :
    (∀ i, fn.emittedTerms (.param abs i) = none → fn'.emittedTerms (.param abs i) = none) ∧
      Prints abs fn fn' fun text =>
        ∀ (env : Env Word) (held : Nat → Abs → Nat → Bool) (vars : Vars Word)
            (world : World (Effect Fn) Label Word Mem) (earlier : List (Value Op)) (words : List Word),
          (∀ j place n, held (j + 1) place n = true → held j place n = true) →
          Right m fn'.emittedTerms env heldAlways (properlyAround abs) vars →
          Right m fn.emittedTerms env heldAlways (· = abs) vars →
          xs.Nodup → (∀ x ∈ xs, (vars x).isSome = true) →
          Assignable m fn'.emittedTerms env held 0 xs words →
          (∀ u ∈ subtermsOf earlier, fn.emittedTerms u ≠ none) →
          args.eval m env = some words →
          steadyTransfer m held env world.mem abs earlier 0 args.toList = true →
          ∃ vars', (Stmt.block text).exec m fuel ⟨vars, world⟩
              = some (signal, ⟨vars', world.record (.marked label words)⟩) ∧
            Holds vars' xs words ∧
            ∀ x, x ∉ xs → ¬ NamedInside (fun place => abs <:+ place) fn fn' x → vars' x = vars x := by
  obtain ⟨emits, floats, printsTransfer⟩ := emitTransfer_runs m fuel args wf within old ofTransfer
  constructor
  · intro i missing
    rw [terms]
    cases found : next.emittedTerms (.param abs i) with
    | none => rfl
    | some term => exact absurd (floats _ term ⟨missing, found⟩) id
  · refine (printsTransfer.trans prints).mono ?_
    rintro text ⟨first, second, rfl, does, rfl⟩
    intro env held vars world earlier words shrinks outer own nodup declared assignable known values steady
    obtain ⟨vars', ran, holds, others⟩ := does env held 0 vars world earlier words shrinks
      (terms ▸ outer.mono (fun _ _ found => found) (fun _ _ _ => rfl) (fun _ h => h))
      (own.mono (fun _ _ found => found) (fun _ _ _ => rfl) (fun _ h => h)) nodup declared
      (terms ▸ assignable) known values steady
    refine ⟨vars', ?_, holds, fun x other unnamed => ?_⟩
    · rw [exec_append_normal m fuel ran]
      change andThen (Stmt.exec m fuel (.mark label xs) ⟨vars', world⟩) _ = _
      rw [mark_exec holds]
      exact leaving _
    · refine others x other fun v registered home => unnamed ⟨v, ⟨registered.1, ?_⟩, ?_⟩
      · rw [terms]
        exact registered.2
      · exact home ▸ List.suffix_refl abs

omit [DecidableEq Op] [DecidableEq Word] in
/-- A variable that stands for nothing may be assigned to. -/
theorem assignable_of_unused {terms : Value Op → Option (Expr Op)} {env : Env Word}
    {held : Nat → Abs → Nat → Bool} {i : Nat} {xs : List Nat} {words : List Word}
    (unused : ∀ x ∈ xs, ∀ v, terms v ≠ some (.var x)) : Assignable m terms env held i xs words := by
  intro n x word atName atWord v bound
  exact absurd bound (unused x (List.mem_of_getElem? atName) v)

theorem Terminator.mergeSelection_correct (args : Operands Op) :
    TerminatorCorrect m fuel (.mergeSelection args : Terminator Op Fn) := by
  intro phis head abs fn fn' wf clear regular ok emitted
  rw [emitTerminator, Option.bind_eq_some_iff] at emitted
  obtain ⟨next, ofTransfer, printed⟩ := emitted
  have old : ∀ x ∈ phis.selection, x < fn.uniqueName := fun x member => (ok.selection x member).1
  obtain ⟨emits, -, -⟩ := emitTransfer_runs m fuel args wf regular old ofTransfer
  have emits' := emits.print (List.suffix_refl abs) printed
  obtain ⟨terms, -, -, prints⟩ := print_eq_some printed
  obtain ⟨missing, does⟩ := transfer_correct m fuel .normal [] wf regular old
    ofTransfer terms prints fun _ => rfl
  refine ⟨emits', missing, does.mono fun text answers => ?_⟩
  intro env vars world earlier out c' known outer own declared steady ran
  rw [Terminator.run, Option.map_eq_some_iff] at ran
  obtain ⟨words, values, equal⟩ := ran
  cases equal
  obtain ⟨vars', exec, -, kept⟩ := answers env (fun _ => heldAlways) vars world earlier words
    (fun _ _ _ h => h) outer own ok.selection_nodup
    (fun x member => declared x (by simp [Phis.all, member]))
    (assignable_of_unused fun x member => (emits'.unused (ok.selection x member)).2) known values steady
  exact ⟨vars', exec, (fun _ ends => by cases ends), kept⟩

theorem Terminator.mergeBreak_correct (args : Operands Op) :
    TerminatorCorrect m fuel (.mergeBreak args : Terminator Op Fn) := by
  intro phis head abs fn fn' wf clear regular ok emitted
  simp only [emitTerminator, Option.bind_eq_some_iff] at emitted
  obtain ⟨next, ofTransfer, marked, printed, left⟩ := emitted
  have old : ∀ x ∈ phis.loopBreak, x < fn.uniqueName := fun x member => (ok.loopBreak x member).1
  obtain ⟨emits, -, -⟩ := emitTransfer_runs m fuel args wf regular old ofTransfer
  have emits' := (emits.print (List.suffix_refl abs) printed).print (List.suffix_refl abs) left
  obtain ⟨terms, -, -, prints⟩ := print_eq_some printed
  obtain ⟨termsLeft, -, -, printsLeft⟩ := print_eq_some left
  have both : Prints abs next fn' (· = [.mark .loopBreak phis.loopBreak, .break]) := by
    refine (prints.trans printsLeft).mono ?_
    rintro text ⟨first, second, rfl, rfl, rfl⟩
    rfl
  obtain ⟨missing, does⟩ := transfer_correct m fuel .broken [.break] wf regular old ofTransfer (termsLeft.trans terms) both fun st => exec_singleton m fuel _ st
  refine ⟨emits', missing, does.mono fun text answers => ?_⟩
  intro env vars world earlier out c' known outer own declared steady ran
  rw [Terminator.run, Option.map_eq_some_iff] at ran
  obtain ⟨words, values, equal⟩ := ran
  cases equal
  obtain ⟨vars', exec, -, kept⟩ := answers env (fun _ => heldAlways) vars world earlier words
    (fun _ _ _ h => h) outer own ok.loopBreak_nodup
    (fun x member => declared x (by simp [Phis.all, member]))
    (assignable_of_unused fun x member => (emits'.unused (ok.loopBreak x member)).2) known values steady
  exact ⟨vars', exec, (fun _ ends => by cases ends), kept⟩

omit [DecidableEq Op] [DecidableEq Word] in
/-- The variables of a continue are different, since they stand for different parameters. -/
theorem PhisOk.loopContinue_nodup (wf : fn.Wf) (ok : PhisOk phis head fn) : phis.loopContinue.Nodup := by
  rw [List.nodup_iff_injective_get]
  intro i j same
  have first := ok.loopContinue i _ (List.getElem?_eq_getElem i.2)
  have second := ok.loopContinue j _ (List.getElem?_eq_getElem j.2)
  have equal := wf.distinct _ _ _ first (by rw [second]; exact congrArg _ (congrArg _ same.symm))
  exact Fin.ext (Value.param.inj equal).2

theorem Terminator.mergeContinue_correct (args : Operands Op) :
    TerminatorCorrect m fuel (.mergeContinue args : Terminator Op Fn) := by
  intro phis head abs fn fn' wf clear regular ok emitted
  simp only [emitTerminator, Option.bind_eq_some_iff] at emitted
  obtain ⟨next, ofTransfer, marked, printed, left⟩ := emitted
  have old : ∀ x ∈ phis.loopContinue, x < fn.uniqueName := fun x member =>
    ok.lt wf (by simp [Phis.all, member])
  obtain ⟨emits, -, -⟩ := emitTransfer_runs m fuel args wf regular old ofTransfer
  have emits' := (emits.print (List.suffix_refl abs) printed).print (List.suffix_refl abs) left
  obtain ⟨terms, -, -, prints⟩ := print_eq_some printed
  obtain ⟨termsLeft, -, -, printsLeft⟩ := print_eq_some left
  have both : Prints abs next fn' (· = [.mark .loopContinue phis.loopContinue, .continue]) := by
    refine (prints.trans printsLeft).mono ?_
    rintro text ⟨first, second, rfl, rfl, rfl⟩
    rfl
  obtain ⟨missing, does⟩ := transfer_correct m fuel .continued [.continue] wf regular old ofTransfer (termsLeft.trans terms) both fun st => exec_singleton m fuel _ st
  refine ⟨emits', missing, does.mono fun text answers => ?_⟩
  intro env vars world earlier out c' known outer own declared steady ran
  rw [Terminator.run, Option.map_eq_some_iff] at ran
  obtain ⟨words, values, equal⟩ := ran
  cases equal
  rw [Terminator.steady, values, Option.map_some, Option.getD_some] at steady
  have shrinks : ∀ j place n, heldBefore env head words (j + 1) place n = true →
      heldBefore env head words j place n = true := by
    intro j place n
    simp only [heldBefore, Bool.not_eq_true', Bool.and_eq_false_iff, decide_eq_false_iff_not]
    intro either
    rcases either with (other | late) | unchanged
    · exact .inl (.inl other)
    · exact .inl (.inr (by omega))
    · exact .inr unchanged
  have assignable : Assignable m fn'.emittedTerms env (heldBefore env head words) 0
      phis.loopContinue words := by
    intro n x word atName atWord v bound holds
    have isParam := emits'.grows _ _ (ok.loopContinue n x atName)
    have same := emits'.wf.distinct v _ x bound isParam
    rw [same] at holds ⊢
    simp only [Value.heldBy, heldBefore, Bool.not_eq_true', Bool.and_eq_false_iff,
      decide_eq_false_iff_not, ne_eq, not_not] at holds
    rw [Value.eval, ← atWord]
    rcases holds with (other | late) | unchanged
    · exact absurd trivial other
    · exact absurd (by omega) late
    · exact unchanged
  obtain ⟨vars', exec, holds, kept⟩ := answers env (heldBefore env head words) vars world earlier words
    shrinks outer own (ok.loopContinue_nodup wf) (fun x member => declared x (by simp [Phis.all, member]))
    assignable known values steady
  refine ⟨vars', exec, fun words' same => ?_, kept⟩
  cases same
  exact holds

end Leaves

end Shady.Backend
