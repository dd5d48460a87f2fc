import Shady.Backend.EmitCSelections

/-!
# Loops

The parameters of a loop are variables that are declared with the initial arguments, and
assigned by each continue. The loop and its text are compared turn by turn.
-/

set_option autoImplicit false

namespace Shady.Backend

open Imperative

section Loops
variable {Op Fn Word Mem : Type} [DecidableEq Op] [DecidableEq Word]
variable {m : Machine Op (Effect Fn) Word Mem} {fuel : Nat}
variable {fn d e last : FnEmitter Op Fn} {abs head : Abs} {phis : Phis}

omit [DecidableEq Op] [DecidableEq Word] in
theorem Holds.get {vars : Vars Word} {xs : List Nat} {words : List Word} (holds : Holds vars xs words)
    {n x : Nat} (atName : xs[n]? = some x) :
    ∃ word, words[n]? = some word ∧ vars x = some (some word) := by
  have same := congrArg (fun slots => slots[n]?) holds
  simp only [List.getElem?_map, atName, Option.map_some] at same
  cases found : words[n]? with
  | none =>
      rw [found] at same
      cases same
  | some word =>
      rw [found] at same
      exact ⟨word, rfl, Option.some.inj same⟩

omit [DecidableEq Op] [DecidableEq Word] in
theorem Holds.of_kept {vars vars' : Vars Word} {xs : List Nat} {words : List Word}
    (holds : Holds vars xs words) (kept : ∀ x ∈ xs, vars' x = vars x) : Holds vars' xs words := by
  rw [Holds, ← holds]
  exact List.map_congr_left kept

/-- A loop is left by a break as a selection is left. -/
def Outcome.ofLoop : Outcome Word → Outcome Word
  | .loopBreak words => .selection words
  | other => other

/-! ## The turns of a loop -/

/-- The emission of a loop's body, between the variables `ps` of its parameters and the
    variables `xs` it is left through. -/
structure LoopOk (m : Machine Op (Effect Fn) Word Mem) (fuel : Nat) (phis : Phis) (abs : Abs)
    (ps xs : List Nat) (run : Config Fn Word Mem → Option (Outcome Word × Config Fn Word Mem))
    (text : CStmt Op Fn) (fn d b e : FnEmitter Op Fn) : Prop where
  wf : e.Wf
  body : ∃ vs, EmitsBody m fuel { phis with loopContinue := ps, loopBreak := xs } (0 :: abs) vs run d b text
  before : Extends fn.emittedTerms d.emittedTerms
  after : Extends b.emittedTerms e.emittedTerms
  own : ∀ v x, d.emittedTerms v = some (.var x) → v.home = 0 :: abs →
    ∃ n, v = .param (0 :: abs) n ∧ ps[n]? = some x
  named : ∀ x ∈ ps, NamedInside (below abs) fn e x
  free : ∀ x ∈ xs, ∀ v, e.emittedTerms v ≠ some (.var x)
  old : ∀ x ∈ phis.selection, ¬ NamedInside (below abs) fn e x
  stays : ∀ c, Stays (fun place => (0 :: abs) <:+ place) c run

variable {ps xs : List Nat} {run : Config Fn Word Mem → Option (Outcome Word × Config Fn Word Mem)}
variable {text : CStmt Op Fn} {b : FnEmitter Op Fn} {env : Env Word} {vars : Vars Word}

/-- At the head of a turn: the parameters are in their variables, and all else is as it was. -/
structure AtHead (abs : Abs) (ps : List Nat) (fn e : FnEmitter Op Fn) (env : Env Word)
    (vars : Vars Word) (turn : List Word × Config Fn Word Mem)
    (st : State (Effect Fn) Label Word Mem) : Prop where
  world : st.world = turn.2.world
  holds : Holds st.vars ps turn.1
  kept : ∀ x, ¬ NamedInside (below abs) fn e x → st.vars x = vars x
  agrees : ∀ place, ¬ below abs place → env.AgreesAt turn.2.env place

omit [DecidableEq Op] in
/-- A turn of the text answers the run of the body. -/
theorem LoopOk.turn (ok : LoopOk m fuel phis abs ps xs run text fn d b e)
    (right : Right m e.emittedTerms env heldAlways (around abs) vars)
    (declared : Phis.Declared { phis with loopContinue := ps, loopBreak := xs } vars)
    {turn : List Word × Config Fn Word Mem} {st : State (Effect Fn) Label Word Mem}
    (atHead : AtHead abs ps fn e env vars turn st) {out : Outcome Word} {c : Config Fn Word Mem}
    (ran : run (turn.2.bindParams (0 :: abs) turn.1) = some (out, c)) :
    (∀ place, ¬ below abs place → env.AgreesAt c.env place) ∧
      ∃ vars', ((text.exec m fuel st).map fun r => (r.1, r.2.leave st.vars))
          = some (out.signal, ⟨vars', c.world⟩) ∧
        Ends { phis with loopContinue := ps, loopBreak := xs } (below abs) fn e st.vars out vars' := by
  obtain ⟨vs, body⟩ := ok.body
  have bound : ∀ place, ¬ below abs place →
      env.AgreesAt (turn.2.bindParams (0 :: abs) turn.1).env place := fun place outside =>
    (atHead.agrees place outside).trans (Env.agreesAt_setParams (ne_of_not_below outside))
  have kept : ∀ v x, e.emittedTerms v = some (.var x) → v.home <:+ abs → st.vars x = vars x :=
    fun v x isBound home => atHead.kept x (not_named_of_around ok.wf isBound home fun _ _ found => found)
  have rightHere : Right m e.emittedTerms (turn.2.bindParams (0 :: abs) turn.1).env heldAlways
      (around abs) st.vars := by
    have sameEnv : Right m e.emittedTerms env heldAlways (around abs) st.vars := by
      intro v x isBound home holds
      obtain ⟨word, value, stored⟩ := right v x isBound home holds
      exact ⟨word, value, (kept v x isBound home).trans stored⟩
    exact sameEnv.congr _ ok.wf fun place home outer inner => bound place (not_below_of_around outer inner)
  have own : Right m d.emittedTerms (turn.2.bindParams (0 :: abs) turn.1).env heldAlways
      (· = 0 :: abs) st.vars := by
    intro v x isBound home _
    obtain ⟨n, param, atName⟩ := ok.own v x isBound home
    obtain ⟨word, atWord, stored⟩ := atHead.holds.get atName
    refine ⟨word, ?_, stored⟩
    have params : (turn.2.bindParams (0 :: abs) turn.1).env.params (0 :: abs) = turn.1 := by
      simp [Config.bindParams, Env.setParams]
    rw [param, Value.eval, params]
    exact atWord
  have declaredHere : Phis.Declared { phis with loopContinue := ps, loopBreak := xs } st.vars := by
    intro x member
    simp only [Phis.all, List.mem_append] at member
    rcases member with (inSelection | inParams) | inBreak
    · rw [atHead.kept x (ok.old x inSelection)]
      exact declared x (by simp [Phis.all, inSelection])
    · obtain ⟨n, atName⟩ := List.mem_iff_getElem?.mp inParams
      obtain ⟨word, -, stored⟩ := atHead.holds.get atName
      rw [stored]
      rfl
    · have unnamed : ¬ NamedInside (below abs) fn e x := fun named => by
        obtain ⟨v, registered, -⟩ := named
        exact ok.free x inBreak v registered.2
      rw [atHead.kept x unnamed]
      exact declared x (by simp [Phis.all, inBreak])
  obtain ⟨vars', exec, ends⟩ := body.answers (turn.2.bindParams (0 :: abs) turn.1).env st.vars
    turn.2.world out c (rightHere.for_child ok.after) own declaredHere ran
  refine ⟨fun place outside => (bound place outside).trans (ok.stays _ out c ran place
    fun inside => outside (below_of_inside inside)), _, ?_,
    (ends.widen ok.before ok.after fun _ => below_of_inside).leave declaredHere⟩
  have same : st = ⟨st.vars, turn.2.world⟩ := by rw [← atHead.world]
  rw [same, exec]
  rfl

/-- How the text of a loop is left. -/
structure LoopLeft (phis : Phis) (abs : Abs) (xs : List Nat) (fn e : FnEmitter Op Fn) (env : Env Word)
    (vars : Vars Word) (result : Outcome Word × Config Fn Word Mem)
    (left : Signal Word × State (Effect Fn) Label Word Mem) : Prop where
  way : (∃ words, result.1 = .loopBreak words) ∨ ∃ words, result.1 = .returned words
  signal : left.1 = result.1.ofLoop.signal
  world : left.2.world = result.2.world
  ends : Ends { phis with selection := xs } (below abs) fn e vars result.1.ofLoop left.2.vars
  agrees : ∀ place, ¬ below abs place → env.AgreesAt result.2.env place

omit [DecidableEq Op] in
/-- The text of a loop answers the loop. -/
theorem LoopOk.answers (ok : LoopOk m fuel phis abs ps xs run text fn d b e)
    (right : Right m e.emittedTerms env heldAlways (around abs) vars)
    (declared : Phis.Declared { phis with loopContinue := ps, loopBreak := xs } vars)
    {words : List Word} {world : World (Effect Fn) Label Word Mem} (holds : Holds vars ps words)
    {result : Outcome Word × Config Fn Word Mem}
    (ran : loopWhile (loopTurn true run abs) fuel (words, ⟨env, world⟩) = some result) :
    ∃ left, (Stmt.whileTrue text : CStmt Op Fn).exec m fuel ⟨vars, world⟩ = some left ∧
      LoopLeft phis abs xs fn e env vars result left := by
  refine loopWhile_simulates (AtHead abs ps fn e env vars) (LoopLeft phis abs xs fn e env vars)
    ?_ ?_ ⟨rfl, holds, fun _ _ => rfl, fun _ _ => ⟨rfl, rfl⟩⟩ ran
  · intro turn st atHead turn' ranTurn
    rw [loopTurn, Option.bind_eq_some_iff] at ranTurn
    obtain ⟨⟨out, c⟩, ranBody, goesOn⟩ := ranTurn
    obtain ⟨agrees, vars', exec, ends⟩ := ok.turn right declared atHead ranBody
    cases out with
    | selection words' => cases goesOn
    | returned words' => cases goesOn
    | loopBreak words' => cases goesOn
    | loopContinue words' =>
        cases goesOn
        obtain ⟨⟨signal, st'⟩, execBody, same⟩ := Option.map_eq_some_iff.mp exec
        obtain ⟨rfl, leaves⟩ := Prod.mk.inj same
        refine ⟨⟨vars', c.world⟩, ?_, rfl, ends.passed words' rfl, ?_, agrees⟩
        · rw [execBody, ← leaves]
          rfl
        · intro x unnamed
          exact (ends.kept x (fun member => unnamed (ok.named x member)) unnamed).trans
            (atHead.kept x unnamed)
  · intro turn st atHead result ranTurn
    rw [loopTurn, Option.bind_eq_some_iff] at ranTurn
    obtain ⟨⟨out, c⟩, ranBody, stops⟩ := ranTurn
    obtain ⟨agrees, vars', exec, ends⟩ := ok.turn right declared atHead ranBody
    obtain ⟨⟨signal, st'⟩, execBody, same⟩ := Option.map_eq_some_iff.mp exec
    cases out with
    | selection words' => cases stops
    | loopContinue words' => cases stops
    | returned words' =>
        cases stops
        obtain ⟨rfl, leaves⟩ := Prod.mk.inj same
        refine ⟨(.returned words', ⟨vars', c.world⟩), ?_, .inr ⟨words', rfl⟩, rfl, rfl,
          ⟨nofun, fun x untouched unnamed => ?_⟩, agrees⟩
        · rw [execBody, ← leaves]
          rfl
        · exact (ends.kept x untouched unnamed).trans (atHead.kept x unnamed)
    | loopBreak words' =>
        cases stops
        obtain ⟨rfl, leaves⟩ := Prod.mk.inj same
        refine ⟨(.normal, ⟨vars', c.world⟩), ?_, .inl ⟨words', rfl⟩, rfl, rfl,
          ⟨nofun, fun x untouched unnamed => ?_⟩, agrees⟩
        · rw [execBody, ← leaves]
          rfl
        · exact (ends.kept x untouched unnamed).trans (atHead.kept x unnamed)

/-! ## The construct -/

omit [DecidableEq Op] [DecidableEq Word] in
theorem afterLoop_eq {tail : Config Fn Word Mem → Option (Outcome Word × Config Fn Word Mem)}
    {result : Outcome Word × Config Fn Word Mem}
    (way : (∃ words, result.1 = .loopBreak words) ∨ ∃ words, result.1 = .returned words) :
    afterLoop tail abs result = afterSelection tail abs (result.1.ofLoop, result.2) := by
  obtain ⟨out, c⟩ := result
  rcases way with ⟨words, same⟩ | ⟨words, same⟩
  · change out = _ at same
    rw [same]
    rfl
  · change out = _ at same
    rw [same]
    rfl

theorem Terminator.loop_correct {initialArgs : Operands Op} {yields : Nat} {body tail : Body Op Fn}
    (ofBody : BodyCorrect m fuel body) (ofTail : BodyCorrect m fuel tail) :
    TerminatorCorrect m fuel (.loop initialArgs yields body tail) := by
  intro phis head abs fn last wf clear regular ok emitted
  simp only [emitTerminator, Option.bind_eq_some_iff] at emitted
  obtain ⟨⟨ps, n⟩, ofParams, ⟨xs, d⟩, ofPhis, ⟨bodyText, b⟩, ofBody', ⟨tailText, e⟩, ofTail',
    printed, wasPrinted, closed⟩ := emitted
  obtain ⟨argsWithin, bodyRegular, tailRegular⟩ := regular
  obtain ⟨emitsN, floats, unusedPs, nodupPs, printsN⟩ :=
    declareInitialised_runs m fuel initialArgs wf argsWithin ofParams
  have noParam : ∀ step j, n.emittedTerms (.param (step :: abs) j) = none := by
    intro step j
    cases found : n.emittedTerms (.param (step :: abs) j) with
    | none => rfl
    | some term => exact absurd (floats _ term ⟨(clear step).param j, found⟩).1 id
  have emitsR := emitsN.registerParams (List.suffix_cons 0 abs) ps 0 (fun j _ => noParam 0 j) unusedPs nodupPs
  obtain ⟨emitsD, printsD⟩ := declarePhis_runs m fuel yields emitsR.wf ofPhis
  obtain ⟨termsD, laterD, -, nodup⟩ := declarePhis_names yields ofPhis
  have entered := emitsR.trans emitsD
  have rest := registerParams_rest (0 :: abs) ps 0 n
  have growsN : Extends n.emittedTerms d.emittedTerms := by
    rw [termsD]
    exact registerParams_extends (0 :: abs) ps 0 fun j _ => noParam 0 j
  have unusedXs : ∀ x ∈ xs, d.Unused x ∧ fn.uniqueName ≤ x := by
    intro x member
    have unused := declarePhis_unused emitsR.wf ofPhis x member
    exact ⟨unused.1, emitsR.later.trans unused.2⟩
  -- below the abstraction only the parameters of the loop are registered
  have registered : ∀ v term, d.emittedTerms v = some term → below abs v.home →
      ∃ n x, v = .param (0 :: abs) n ∧ ps[n]? = some x ∧ term = .var x := by
    intro v term found isBelow
    change d.emittedTerms v = some term at found
    rw [termsD] at found
    cases registerParams_cases (0 :: abs) ps 0 n found with
    | inr param =>
        obtain ⟨k, x, same, atName, spelled⟩ := param
        exact ⟨0 + k, x, same, by rw [Nat.zero_add]; exact atName, spelled⟩
    | inl old =>
        obtain ⟨step, inside⟩ := isBelow
        cases before : fn.emittedTerms v with
        | none => exact absurd (inside.trans (floats v term ⟨before, old⟩).2) not_below_self
        | some older => exact absurd inside (clear step v older before)
  have okD : PhisOk phis head d := entered.phisOk ok
  have okBody : PhisOk { phis with loopContinue := ps, loopBreak := xs } (0 :: abs) d := by
    refine ⟨okD.selection, okD.selection_nodup, fun x member => (unusedXs x member).1, nodup, ?_⟩
    intro k x atName
    have found := registerParams_found (0 :: abs) ps 0 n atName
    rw [Nat.zero_add] at found
    change d.emittedTerms _ = _
    rw [termsD]
    exact found
  have untouched : d.Untouched (0 :: abs) := by
    intro v term found inside
    obtain ⟨k, x, same, -, -⟩ := registered v term found (below_of_inside inside)
    exact ⟨k, same⟩
  have clearTail : d.Clear (2 :: abs) := by
    intro v term found inside
    obtain ⟨k, x, same, -, -⟩ := registered v term found (below_of_inside inside)
    rw [same] at inside
    exact absurd (step_eq_of_below inside (List.suffix_refl (0 :: abs))) (by decide)
  have emitsBody := ofBody entered.wf untouched bodyRegular okBody ofBody'
  have clearB : b.Clear (2 :: abs) := emitsBody.emits.clear_sibling (by decide) clearTail
  have bodyTail := ofTail emitsBody.emits.wf clearB.untouched tailRegular (emitsBody.emits.phisOk okD) ofTail'
  have emits := emitsBody.emits.of_child.trans bodyTail.emits.of_child
  obtain ⟨closes, tailOk⟩ := construct_closes wf clear ok entered unusedXs nodup emits bodyTail clearB
    emitsBody.emits.grows (fun _ _ found => found) (fun j => bodyTail.params j (clearB.param j))
    wasPrinted closed
  have grows : Extends d.emittedTerms last.emittedTerms := emits.grows.trans closes.grows
  have paramNamed : ∀ x ∈ ps, ∃ i, d.emittedTerms (.param (0 :: abs) i) = some (.var x) := by
    intro x member
    obtain ⟨k, atName⟩ := List.mem_iff_getElem?.mp member
    exact ⟨k, okBody.loopContinue k x atName⟩
  have loopOk : LoopOk m fuel phis abs ps xs (body.run m true fuel (0 :: abs) (0 :: abs)) bodyText fn d b e := by
    refine ⟨emits.wf, ⟨_, emitsBody⟩, entered.grows, bodyTail.emits.grows, ?_, ?_, tailOk.free, ?_, ?_⟩
    · intro v x found home
      obtain ⟨k, y, same, atName, spelled⟩ := registered v _ found ⟨0, home ▸ List.suffix_refl _⟩
      cases spelled
      exact ⟨k, same, atName⟩
    · intro x member
      obtain ⟨i, found⟩ := paramNamed x member
      exact ⟨_, ⟨(clear 0).param i, emits.grows _ _ found⟩, 0, List.suffix_refl _⟩
    · exact fun x member => tailOk.old x (by simp [Phis.all, member])
    · exact fun c => Body.run_stays m true fuel body (0 :: abs) (0 :: abs) c
  have listed : initialArgs.toList ++ [] ++ (body.values ++ tail.values)
      = (Terminator.loop initialArgs yields body tail).values := by
    rw [List.append_nil, Terminator.values, List.append_assoc]
  refine ⟨?_, ?_, ?_⟩
  · exact listed ▸ closes.emits
  · intro i absent
    refine closes.params i (emits.param_missing not_below_abs ?_)
    rw [termsD]
    cases found : (FnEmitter.registerParams (0 :: abs) 0 ps n).emittedTerms (.param abs i) with
    | none => rfl
    | some term =>
        cases registerParams_cases (0 :: abs) ps 0 n found with
        | inl old => exact absurd (floats _ term ⟨absent, old⟩).1 id
        | inr param =>
            obtain ⟨k, x, same, -, -⟩ := param
            have longer := congrArg List.length (Value.param.inj same).1
            simp at longer
  · have printsR : Prints abs n d _ := fun before isOpen => printsD before (rest.1 ▸ isOpen)
    have hoisted := tailOk.hoisted entered.grows emits closes.prints entered.later fun x member =>
      ok.lt wf member
    refine ((printsN.trans printsR).trans hoisted).mono ?_
    rintro text ⟨-, third, rfl, ⟨first, second, rfl, doesN, doesD⟩, does⟩
    intro env vars world earlier out c' known outer own declared steady ran
    simp only [Terminator.run, Option.bind_eq_some_iff] at ran
    obtain ⟨words, values, result, ranLoop, ranTail⟩ := ran
    have outerN : Right m n.emittedTerms env heldAlways (properlyAround abs) vars :=
      outer.mono (growsN.trans grows) (fun _ _ h => h) (fun _ h => h)
    obtain ⟨varsN, words', execN, values', holdsN, ownN, othersN⟩ := doesN env heldAlways vars world earlier
      (Terminator.loop initialArgs yields body tail).values initialArgs.toList outerN own steady
      (fun v member => by rw [← listed]; simp [member]) (List.Subset.refl _) known
    cases values.symm.trans values'
    obtain ⟨varsD, execD, isDeclared, othersD⟩ := doesD varsN world
    have apart : ∀ v x, d.emittedTerms v = some (.var x) → x ∉ xs := fun v x found member =>
      (unusedXs x member).1.2 v found
    have psApart : ∀ x ∈ ps, x ∉ xs := by
      intro x member
      obtain ⟨i, found⟩ := paramNamed x member
      exact apart _ x found
    have kept : ∀ x, x ∉ ps → (∀ v, Registered fn n v (.var x) → v.home ≠ abs) → x ∉ xs →
        varsD x = vars x := by
      intro x notParam unnamed notXs
      rw [othersD x notXs, othersN x notParam unnamed]
    have ownD : Right m d.emittedTerms env heldAlways (· = abs) varsD := by
      intro v x found home holds
      rw [othersD x (apart v x found)]
      refine ownN v x ?_ home holds
      rw [termsD] at found
      cases registerParams_cases (0 :: abs) ps 0 n found with
      | inl old => exact old
      | inr param =>
          obtain ⟨k, y, same, -, -⟩ := param
          rw [same] at home
          have longer := congrArg List.length home
          simp [Value.home, Value.schedule] at longer
    have outerD : Right m last.emittedTerms env heldAlways (properlyAround abs) varsD := by
      intro v x bound home holds
      obtain ⟨word, value, stored⟩ := outer v x bound home holds
      have lastWf := closes.emits.wf
      refine ⟨word, value, ?_⟩
      rw [kept x]
      · exact stored
      · intro member
        obtain ⟨i, found⟩ := paramNamed x member
        rw [lastWf.distinct v _ x bound (grows _ _ found)] at home
        exact not_below_self home.1
      · intro u isNew here
        rw [lastWf.distinct u v x (grows _ _ (growsN _ _ isNew.2)) bound] at here
        exact home.2 here
      · intro member
        obtain ⟨i, found⟩ := closes.named x member
        rw [lastWf.distinct v _ x bound found] at home
        exact not_below_self home.1
    have declaredD : phis.Declared varsD := by
      refine declared.of_kept fun x member => kept x ?_ ?_ (fun inXs => tailOk.apart x inXs member)
      · intro inPs
        have old := ok.lt wf member
        have recent := (unusedPs x inPs).2
        omega
      · intro v isNew
        have old := ok.lt wf member
        have recent := emitsN.names v x isNew
        omega
    have holdsD : Holds varsD ps words := holdsN.of_kept fun x member => othersD x (psApart x member)
    have answered : ConstructAnswers m fuel phis abs xs fn d e env varsD world
        (some (result.1.ofLoop, result.2)) (.whileTrue bodyText) := by
      intro vars' right declaredXs declaredPhis unchanged out₁ c₁ same
      cases same
      have holds' : Holds vars' ps words := holdsD.of_kept fun x member => by
        obtain ⟨i, found⟩ := paramNamed x member
        exact unchanged x (entered.wf.named _ _ found)
      have declared' : Phis.Declared { phis with loopContinue := ps, loopBreak := xs } vars' := by
        intro x member
        simp only [Phis.all, List.mem_append] at member
        rcases member with (inSelection | inParams) | inBreak
        · exact declaredPhis x (by simp [Phis.all, inSelection])
        · obtain ⟨k, atName⟩ := List.mem_iff_getElem?.mp inParams
          obtain ⟨word, -, stored⟩ := holds'.get atName
          rw [stored]
          rfl
        · exact declaredXs x (by simp [Phis.all, inBreak])
      obtain ⟨⟨signal, st⟩, exec, left⟩ := loopOk.answers right declared' holds' ranLoop
      refine ⟨left.agrees, st.vars, ?_, left.ends⟩
      rw [exec, ← left.signal, ← left.world]
    have way : (∃ words, result.1 = .loopBreak words) ∨ ∃ words, result.1 = .returned words := by
      refine loopWhile_invariant (fun _ => True)
        (fun r : Outcome Word × Config Fn Word Mem =>
          (∃ words, r.1 = .loopBreak words) ∨ ∃ words, r.1 = .returned words)
        (fun _ _ _ _ => trivial) ?_ trivial ranLoop
      intro turn _ r ranTurn
      rw [loopTurn, Option.bind_eq_some_iff] at ranTurn
      obtain ⟨⟨out₁, c₁⟩, -, stops⟩ := ranTurn
      cases out₁ with
      | selection words => cases stops
      | loopContinue words => cases stops
      | returned words => cases stops; exact .inr ⟨words, rfl⟩
      | loopBreak words => cases stops; exact .inl ⟨words, rfl⟩
    rw [afterLoop_eq way] at ranTail
    have knownD : ∀ u ∈ subtermsOf earlier, d.emittedTerms u ≠ none := fun u member absent =>
      known u member (entered.grows.none absent)
    obtain ⟨vars', exec, ends⟩ := does env varsD world earlier _ _ _ out c' knownD outerD ownD declaredD
      isDeclared steady (fun v member => by rw [← listed]; exact List.mem_append_right _ member) answered
      ranTail
    refine ⟨vars', ?_, ends.passed, fun x untouched' unnamed => ?_⟩
    · rw [List.append_assoc, exec_append_normal m fuel execN, exec_append_normal m fuel execD]
      exact exec
    · rw [ends.kept x untouched' unnamed]
      refine kept x ?_ ?_ fun member => unnamed (tailOk.named x member)
      · intro member
        obtain ⟨i, found⟩ := paramNamed x member
        exact unnamed ⟨_, ⟨(clear 0).param i, grows _ _ found⟩, List.suffix_cons 0 abs⟩
      · intro v isNew home
        exact unnamed ⟨v, ⟨isNew.1, grows _ _ (growsN _ _ isNew.2)⟩, home ▸ List.suffix_refl abs⟩

end Loops

end Shady.Backend
