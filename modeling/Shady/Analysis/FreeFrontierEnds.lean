import Shady.Analysis.FreeFrontierExact
import Shady.Library.Search

/-!
# Where the search for a free frontier ends

The nodes of a function are finitely many, so that a search ends if the frontiers of the
blocks it exits to are found. These are found exactly if the exits do not lead in a circle.
-/

set_option autoImplicit false

namespace Shady
open Dominance Fallible

/-! ## The nodes of a function -/

section Parts

theorem IrNode.mem_parts_self (n : IrNode) : n ∈ n.parts := by
  cases n <;> simp [IrNode.parts]

theorem IrNode.mem_partsAll {m : IrNode} {ns : List IrNode} :
    m ∈ IrNode.partsAll ns ↔ ∃ n ∈ ns, m ∈ n.parts := by
  induction ns with
  | nil => simp [IrNode.partsAll]
  | cons n ns ih => simp [IrNode.partsAll, ih]

/-- The operands of a part are parts. -/
theorem IrNode.operand_mem_parts (n : IrNode) : ∀ m ∈ n.parts, ∀ o ∈ m.operands, o ∈ n.parts := by
  have inOperands : ∀ {operands : List IrNode}, (∀ k ∈ operands, ∀ m ∈ k.parts,
      ∀ o ∈ m.operands, o ∈ k.parts) → ∀ m ∈ IrNode.partsAll operands, ∀ o ∈ m.operands,
      o ∈ IrNode.partsAll operands := by
    intro operands ih m member o operand
    obtain ⟨k, listed, part⟩ := IrNode.mem_partsAll.mp member
    exact IrNode.mem_partsAll.mpr ⟨k, listed, ih k listed m part o operand⟩
  induction n using IrNode.inductOn with
  | param id abs =>
      intro m member o operand
      obtain rfl := List.mem_singleton.mp member
      cases operand
  | absMem id abs =>
      intro m member o operand
      obtain rfl := List.mem_singleton.mp member
      cases operand
  | pure id tag operands ih =>
      intro m member o operand
      unfold IrNode.parts at member ⊢
      apply List.mem_cons_of_mem
      cases List.mem_cons.mp member with
      | inl same =>
          subst same
          exact IrNode.mem_partsAll.mpr ⟨o, operand, o.mem_parts_self⟩
      | inr inner => exact inOperands ih m inner o operand
  | instr id tag mem operands ihMem ih =>
      intro m member o operand
      unfold IrNode.parts at member ⊢
      apply List.mem_cons_of_mem
      rw [List.mem_append]
      cases List.mem_cons.mp member with
      | inl same =>
          subst same
          cases List.mem_cons.mp operand with
          | inl isMem => exact Or.inl (isMem ▸ mem.mem_parts_self)
          | inr listed => exact Or.inr (IrNode.mem_partsAll.mpr ⟨o, listed, o.mem_parts_self⟩)
      | inr inner =>
          cases List.mem_append.mp inner with
          | inl ofMem => exact Or.inl (ihMem m ofMem o operand)
          | inr ofOperands => exact Or.inr (inOperands ih m ofOperands o operand)

/-- A terminator with the values it is made of. -/
def TerminatorNode.values (t : TerminatorNode) : List BodyNode :=
  .terminator t :: (IrNode.partsAll t.dependencies).map .value

/-- All that a visitor can meet in a function. -/
def FunctionNode.bodyNodes (f : FunctionNode) : List BodyNode :=
  f.abstractions.flatMap fun entry =>
    .block entry.1 :: entry.2.params.map .value ++ entry.2.body.toList.flatMap fun t =>
      t.values ++ t.operands.flatMap fun o => match o with
        | .terminator j => j.values
        | _ => []

variable {f : FunctionNode}

theorem FunctionNode.mem_of_get {b : AbsId} {abs : AbstractionNode} (found : f.get b = some abs) :
    (b, abs) ∈ f.abstractions := by
  obtain ⟨before, rest, parts, -⟩ := List.lookup_eq_some_iff.mp found
  exact parts ▸ List.mem_append_right _ List.mem_cons_self

theorem TerminatorNode.values_closed {t : TerminatorNode} {n o : IrNode}
    (member : .value n ∈ t.values) (operand : o ∈ n.operands) : .value o ∈ t.values := by
  cases List.mem_cons.mp member with
  | inl same => cases same
  | inr listed =>
      obtain ⟨m, isPart, same⟩ := List.mem_map.mp listed
      obtain rfl := BodyNode.value.inj same
      obtain ⟨k, isDependency, part⟩ := IrNode.mem_partsAll.mp isPart
      apply List.mem_cons_of_mem
      apply List.mem_map_of_mem
      exact IrNode.mem_partsAll.mpr ⟨k, isDependency, k.operand_mem_parts m part o operand⟩

/-- The members of the list, by what they are. -/
theorem FunctionNode.mem_bodyNodes {m : BodyNode} :
    m ∈ f.bodyNodes ↔ ∃ b abs, (b, abs) ∈ f.abstractions ∧
      (m = .block b ∨ (∃ p ∈ abs.params, m = .value p) ∨ ∃ t, abs.body = some t ∧
        (m ∈ t.values ∨ ∃ j, .terminator j ∈ t.operands ∧ m ∈ j.values)) := by
  unfold FunctionNode.bodyNodes
  simp only [List.mem_flatMap, Prod.exists, List.mem_append, List.mem_cons, List.mem_map,
    Option.mem_toList]
  constructor
  · rintro ⟨b, abs, listed, (same | ⟨p, member, rfl⟩) | ⟨t, body, values | ⟨o, operand, inner⟩⟩⟩
    · exact ⟨b, abs, listed, Or.inl same⟩
    · exact ⟨b, abs, listed, Or.inr (Or.inl ⟨p, member, rfl⟩)⟩
    · exact ⟨b, abs, listed, Or.inr (Or.inr ⟨t, body, Or.inl values⟩)⟩
    · cases o with
      | value n => cases inner
      | block c => cases inner
      | terminator j => exact ⟨b, abs, listed, Or.inr (Or.inr ⟨t, body, Or.inr ⟨j, operand, inner⟩⟩)⟩
  · rintro ⟨b, abs, listed, same | ⟨p, member, rfl⟩ | ⟨t, body, values | ⟨j, operand, inner⟩⟩⟩
    · exact ⟨b, abs, listed, Or.inl (Or.inl same)⟩
    · exact ⟨b, abs, listed, Or.inl (Or.inr ⟨p, member, rfl⟩)⟩
    · exact ⟨b, abs, listed, Or.inr ⟨t, body, Or.inl values⟩⟩
    · exact ⟨b, abs, listed, Or.inr ⟨t, body, Or.inr ⟨.terminator j, operand, inner⟩⟩⟩

/-- The nodes of a body are in the list. -/
theorem FunctionNode.InBody.mem_bodyNodes {analysed : AnalysedCFG} {b : AbsId} {m : BodyNode}
    (body : f.InBody analysed b m) : m ∈ f.bodyNodes := by
  -- values are found with the terminator that needs them
  have located : (∃ t, f.InBody analysed b (.terminator t) ∧ m ∈ t.values) ∨
      ∃ abs, f.get b = some abs ∧ m = .block b := by
    induction body with
    | block _ found _ => exact Or.inr ⟨_, found, rfl⟩
    | terminator inside found body =>
        exact Or.inl ⟨_, .terminator inside found body, List.mem_cons_self⟩
    | jump ends operand _ => exact Or.inl ⟨_, ends.jump operand, List.mem_cons_self⟩
    | @dependency t n ends uses _ =>
        refine Or.inl ⟨t, ends, List.mem_cons_of_mem _ (List.mem_map_of_mem ?_)⟩
        exact IrNode.mem_partsAll.mpr ⟨n, uses, n.mem_parts_self⟩
    | operand _ uses ih =>
        obtain ⟨t, ends, member⟩ | ⟨abs, _, same⟩ := ih
        · exact Or.inl ⟨t, ends, TerminatorNode.values_closed member uses⟩
        · cases same
  rw [FunctionNode.mem_bodyNodes]
  obtain ⟨t, ends, member⟩ | ⟨abs, found, same⟩ := located
  · obtain ⟨-, last, isLast, which⟩ := FunctionNode.inBody_terminator.mp ends
    obtain ⟨abs, found, body⟩ := FunctionNode.bodyOf_eq isLast
    refine ⟨b, abs, FunctionNode.mem_of_get found, Or.inr (Or.inr ⟨last, body, ?_⟩)⟩
    cases which with
    | inl isOwn => exact Or.inl (isOwn ▸ member)
    | inr isJump => exact Or.inr ⟨t, isJump, member⟩
  · exact ⟨b, abs, FunctionNode.mem_of_get found, Or.inl same⟩

end Parts

/-! ## Searches that return -/

/-- A search through nodes of the function that can all be scheduled and placed returns if
the frontiers of the blocks that are outside are found. -/
theorem visitFreeFrontier_returns {f : FunctionNode} {analysed : AnalysedCFG} {start : CFNodeId}
    {good : BodyNode → Prop} {depth : Nat}
    (step : ∀ m o, good m → FrontierStep f analysed start m o → good o)
    (listed : ∀ m, good m → m ∈ f.bodyNodes)
    (placed : ∀ m, good m → ∃ place, scheduleInstruction analysed m = .ok place ∧
      ∀ p, place = some p → ∃ answer, isDominated analysed.cfg analysed.tree p start = .ok answer)
    (blocks : ∀ c p, good (.block c) → scheduleInstruction analysed (.block c) = .ok (some p) →
      isDominated analysed.cfg analysed.tree p start = .ok false →
      ∃ set, freeFrontier f analysed depth c = .ok set)
    (fuel : Nat) : ∀ n s, good n → Search.left f.bodyNodes s.seen + depth < fuel →
      ∃ s', visitFreeFrontier f analysed start fuel n s = .ok s' := by
  induction fuel with
  | zero => exact fun _ _ _ enough => absurd enough (Nat.not_lt_zero _)
  | succ fuel ih =>
      intro n s isGood enough
      rw [visitFreeFrontier]
      by_cases known : n ∈ s.seen
      · exact ⟨s, if_pos known⟩
      obtain ⟨place, scheduled, answers⟩ := placed n isGood
      have fewer := Search.left_lt (listed n isGood) known
      rw [if_neg known, scheduled]
      cases place with
      | none => exact ⟨_, rfl⟩
      | some p =>
          obtain ⟨answer, answered⟩ := answers p rfl
          simp only [bind, Except.bind, answered]
          cases answer with
          | true =>
              have turn : ∀ o ∈ f.operands n, ∀ s : FrontierState,
                  Search.left f.bodyNodes s.seen + depth < fuel →
                  ∃ s', visitFreeFrontier f analysed start fuel o s = .ok s' ∧
                    Search.left f.bodyNodes s'.seen + depth < fuel := by
                intro o operand s enough
                have goodO := step n o isGood ⟨p, scheduled, answered, operand⟩
                obtain ⟨s', ran⟩ := ih o s goodO enough
                have swept := (visitFreeFrontier_swept fuel o s s' ran).1
                have less : Search.left f.bodyNodes s'.seen ≤ Search.left f.bodyNodes s.seen :=
                  Search.left_le swept.seen
                exact ⟨s', ran, by omega⟩
              have begins : Search.left f.bodyNodes (n :: s.seen) + depth < fuel := by omega
              obtain ⟨s', ran, -⟩ := foldlM_succeeds
                (fun s : FrontierState => Search.left f.bodyNodes s.seen + depth < fuel) turn
                (s := ⟨n :: s.seen, s.frontier⟩) begins
              exact ⟨s', ran⟩
          | false =>
              cases n with
              | value n =>
                  simp only [Bool.false_eq_true, if_false]
                  split_ifs <;> exact ⟨_, rfl⟩
              | terminator t => exact ⟨_, rfl⟩
              | block c =>
                  obtain ⟨set, found⟩ := blocks c p isGood scheduled answered
                  have deeper : freeFrontier f analysed fuel _ = .ok _ := freeFrontier_mono (by omega) found
                  simp only [Bool.false_eq_true, if_false, deeper]
                  exact ⟨_, rfl⟩

section Returns
variable {f : FunctionNode} {analysed : AnalysedCFG} (searched : Searched f analysed)
  {b : AbsId} (inside : some b ∈ analysed.cfg.contents)
include searched inside

/-- Whatever is met is one of finitely many nodes, and can be scheduled. -/
theorem Met.scheduled {m : BodyNode} (met : Met f analysed b m) :
    m ∈ f.bodyNodes ∧ ∃ place, scheduleInstruction analysed m = .ok place ∧
      ∀ p, place = some p → p ∈ analysed.cfg.contents := by
  cases m with
  | terminator t =>
      obtain ⟨u, path, way, ends⟩ := met
      obtain ⟨place, scheduled, -, above⟩ := placed_above searched ends
      exact ⟨ends.mem_bodyNodes, place, scheduled, fun p same =>
        dominator_inside searched.sound ends.inside (above p same)⟩
  | block c =>
      obtain ⟨u, path, way, named⟩ := met
      have insideU := inside_of_walk searched inside way.1
      have insideC := inside_of_names searched insideU named
      obtain ⟨t, ends, target⟩ := named
      obtain ⟨abs, found, body⟩ := FunctionNode.bodyOf_eq ends
      obtain ⟨block, isBlock, notFunction⟩ := searched.formed.targets u abs t found body c target
      have own := FunctionNode.InBody.block insideC isBlock notFunction
      refine ⟨own.mem_bodyNodes, some (some c), block_placed insideC, ?_⟩
      rintro p same
      exact Option.some.inj same ▸ insideC
  | value n =>
      obtain ⟨u, path, way, needs | ⟨abs, found, member⟩⟩ := met
      · obtain ⟨place, scheduled, -, above⟩ := placed_above searched needs.inBody
        exact ⟨needs.inBody.mem_bodyNodes, place, scheduled, fun p same =>
          dominator_inside searched.sound needs.inBody.inside (above p same)⟩
      · have insideU := inside_of_walk searched inside way.1
        constructor
        · rw [FunctionNode.mem_bodyNodes]
          exact ⟨u, abs, FunctionNode.mem_of_get found, Or.inr (Or.inl ⟨n, member, rfl⟩)⟩
        · obtain ⟨id, rfl⟩ := searched.formed.params u abs found n member
          refine ⟨some (some u), scheduleOwn_spec insideU, ?_⟩
          rintro p same
          exact Option.some.inj same ▸ insideU

theorem exits_of_met {c : AbsId} {p : CFNodeId} (met : Met f analysed b (.block c))
    (placed : scheduleInstruction analysed (.block c) = .ok (some p))
    (outside : isDominated analysed.cfg analysed.tree p (some b) = .ok false) :
    f.Exits analysed b c := by
  obtain ⟨u, path, way, named⟩ := met
  rw [block_placed (inside_of_names searched (inside_of_walk searched inside way.1) named)]
    at placed
  obtain rfl := Option.some.inj (Except.ok.inj placed)
  refine ⟨u, path, way, named, ?_⟩
  unfold AnalysedCFG.Below
  rw [outside]
  simp

/-- The frontiers of finitely many blocks are found with one bound. -/
theorem exitsFound_uniform
    (each : ∀ c, f.Exits analysed b c → ∃ fuel set, freeFrontier f analysed fuel c = .ok set) :
    ∃ depth, ∀ c, f.Exits analysed b c →
      ∃ set, freeFrontier f analysed depth c = .ok set := by
  have upTo : ∀ blocks : List CFNodeId, ∃ depth, ∀ c, some c ∈ blocks → f.Exits analysed b c →
      ∃ set, freeFrontier f analysed depth c = .ok set := by
    intro blocks
    induction blocks with
    | nil => exact ⟨0, fun c member => absurd member List.not_mem_nil⟩
    | cons v blocks ih =>
        obtain ⟨depth, found⟩ := ih
        by_cases isExit : ∃ c, v = some c ∧ f.Exits analysed b c
        · obtain ⟨c, rfl, exits⟩ := isExit
          obtain ⟨fuel, set, foundC⟩ := each c exits
          refine ⟨max fuel depth, ?_⟩
          intro d member exitsD
          cases List.mem_cons.mp member with
          | inl same =>
              obtain rfl := Option.some.inj same
              exact ⟨set, freeFrontier_mono (Nat.le_max_left _ _) foundC⟩
          | inr later =>
              obtain ⟨other, foundD⟩ := found d later exitsD
              exact ⟨other, freeFrontier_mono (Nat.le_max_right _ _) foundD⟩
        · refine ⟨depth, ?_⟩
          intro d member exitsD
          cases List.mem_cons.mp member with
          | inl same => exact absurd ⟨d, same.symm, exitsD⟩ isExit
          | inr later => exact found d later exitsD
  obtain ⟨depth, found⟩ := upTo analysed.cfg.contents
  exact ⟨depth, fun c exits => found c (exits.inside searched inside) exits⟩

theorem freeFrontier_returns (ends : Acc (fun c b => f.Exits analysed b c) b) :
    ∃ fuel set, freeFrontier f analysed fuel b = .ok set := by
  induction ends with
  | intro b _ ih =>
      obtain ⟨depth, exitsFound⟩ := exitsFound_uniform searched inside
        fun c exits => ih c exits (exits.inside searched inside)
      cases body : (f.get b).bind AbstractionNode.body with
      | none =>
          refine ⟨1, [], ?_⟩
          rw [freeFrontier]
          unfold cfgLookup
          rw [if_pos inside]
          simp only [bind, Except.bind, body]
          rfl
      | some last =>
          have met := met_of_reached searched inside body .refl
          have answers : ∀ m, Met f analysed b m → ∃ place,
              scheduleInstruction analysed m = .ok place ∧ ∀ p, place = some p →
                ∃ answer, isDominated analysed.cfg analysed.tree p (some b) = .ok answer := by
            intro m met
            obtain ⟨-, place, scheduled, insidePlace⟩ := met.scheduled searched inside
            refine ⟨place, scheduled, fun p same => ?_⟩
            obtain ⟨answer, answered, -⟩ :=
              searched.climbed.answer p (insidePlace p same) (some b)
            exact ⟨answer, answered⟩
          obtain ⟨state, ran⟩ := visitFreeFrontier_returns
            (fun m o met step => met.step searched inside step)
            (fun m met => (met.scheduled searched inside).1) answers
            (fun c p met placed outside =>
              exitsFound c (exits_of_met searched inside met placed outside))
            (Search.left f.bodyNodes [] + depth + 1) (.terminator last) ⟨[], []⟩ met
            (Nat.lt_succ_self _)
          refine ⟨Search.left f.bodyNodes [] + depth + 2, state.frontier, ?_⟩
          rw [freeFrontier]
          unfold cfgLookup
          rw [if_pos inside]
          simp only [bind, Except.bind, body, ran]
          rfl

/-- The exits stay in the graph. -/
theorem inside_of_exits {c : AbsId} (leads : Relation.ReflTransGen (f.Exits analysed) b c) :
    some c ∈ analysed.cfg.contents := by
  induction leads with
  | refl => exact inside
  | tail _ exits ih => exact exits.inside searched ih

end Returns

/-- A frontier is found, and is then exact, if and only if no block that the exits lead to
leads back to itself. -/
theorem freeFrontier_exact_iff (f : FunctionNode) (entry : AbsId) (config : CFGBuildConfig)
    (analysed : AnalysedCFG) (forward : config.flipped = false)
    (tails : config.includeStructuredTails = true) (whole : config.lt = none)
    (built : newCfg f.controlFlow entry config = .ok analysed) (formed : f.Formed)
    (well : f.WellScoped analysed) (b : AbsId) (inside : some b ∈ analysed.cfg.contents) :
    (∃ fuel set, freeFrontier f analysed fuel b = .ok set ∧
      ∀ v, v ∈ set ↔ f.FreeIn analysed b v) ↔
    ¬ ∃ c, Relation.ReflTransGen (f.Exits analysed) b c ∧
      Relation.TransGen (f.Exits analysed) c c := by
  have searched := newCfg_searched forward tails whole built formed well
  have finite : ∀ c, Relation.ReflTransGen (f.Exits analysed) b c →
      c ∈ analysed.cfg.contents.filterMap id := by
    intro c leads
    exact List.mem_filterMap.mpr ⟨some c, inside_of_exits searched inside leads, rfl⟩
  constructor
  · rintro ⟨fuel, set, found, -⟩
    exact Search.acyclic_of_acc (acc_of_found searched inside found)
  · intro acyclic
    obtain ⟨fuel, set, found⟩ :=
      freeFrontier_returns searched inside (Search.acc_of_acyclic finite acyclic)
    exact ⟨fuel, set, found, freeFrontier_exact searched fuel b set inside found⟩

/-- A function that branches into a loop at two places. -/
def twoEntries : FunctionNode where
  self := 0
  abstractions := [
    (0, ⟨true, [.param 10 0], some (.branch (.absMem 11 0) (.param 10 0)
      ⟨.absMem 11 0, 1, []⟩ ⟨.absMem 11 0, 2, []⟩)⟩),
    (1, ⟨false, [], some (.jump ⟨.absMem 12 1, 2, []⟩)⟩),
    (2, ⟨false, [], some (.jump ⟨.absMem 13 2, 1, []⟩)⟩)]

theorem twoEntries_get {b : AbsId} {abs : AbstractionNode} (found : twoEntries.get b = some abs) :
    (b, abs) ∈ twoEntries.abstractions :=
  FunctionNode.mem_of_get found

theorem twoEntries_formed : twoEntries.Formed where
  targets := by
    intro b abs t found body c target
    have listed := twoEntries_get found
    simp only [twoEntries, List.mem_cons, List.not_mem_nil, or_false, Prod.mk.injEq] at listed
    have which : c = 1 ∨ c = 2 := by
      obtain ⟨rfl, rfl⟩ | ⟨rfl, rfl⟩ | ⟨rfl, rfl⟩ := listed <;> cases body <;>
        simp [TerminatorNode.controlFlow, Terminator.targets, Terminator.jumps, JumpNode.toJump,
          Terminator.structuralTargets, Terminator.bodies, Terminator.tail?] at target <;> tauto
    cases which with
    | inl same => exact ⟨_, by rw [same]; rfl, rfl⟩
    | inr same => exact ⟨_, by rw [same]; rfl, rfl⟩
  params := by
    intro b abs found p member
    have listed := twoEntries_get found
    simp only [twoEntries, List.mem_cons, List.not_mem_nil, or_false, Prod.mk.injEq] at listed
    obtain ⟨rfl, rfl⟩ | ⟨rfl, rfl⟩ | ⟨rfl, rfl⟩ := listed
    · exact ⟨10, List.mem_singleton.mp member⟩
    · cases member
    · cases member
  chained := by
    intro b abs t found body
    have listed := twoEntries_get found
    simp only [twoEntries, List.mem_cons, List.not_mem_nil, or_false, Prod.mk.injEq] at listed
    obtain ⟨rfl, rfl⟩ | ⟨rfl, rfl⟩ | ⟨rfl, rfl⟩ := listed <;> cases body <;> rfl
  jumps := by
    intro b abs t found body j operand
    have listed := twoEntries_get found
    simp only [twoEntries, List.mem_cons, List.not_mem_nil, or_false, Prod.mk.injEq] at listed
    obtain ⟨rfl, rfl⟩ | ⟨rfl, rfl⟩ | ⟨rfl, rfl⟩ := listed
    · cases body
      simp only [TerminatorNode.operands, List.mem_cons, List.not_mem_nil, or_false, reduceCtorEq,
        false_or, BodyNode.terminator.injEq] at operand
      obtain rfl | rfl := operand <;> rfl
    · cases body
      simp [TerminatorNode.operands] at operand
    · cases body
      simp [TerminatorNode.operands] at operand

/-- All uses are in the block of their definition. -/
theorem twoEntries_wellScoped (analysed : AnalysedCFG) : twoEntries.WellScoped analysed := by
  intro b t ends n uses
  obtain ⟨-, last, isLast, which⟩ := FunctionNode.inBody_terminator.mp ends
  obtain ⟨abs, found, body⟩ := FunctionNode.bodyOf_eq isLast
  have listed := twoEntries_get found
  simp only [twoEntries, List.mem_cons, List.not_mem_nil, or_false, Prod.mk.injEq] at listed
  have own : ∃ id, n = .absMem id b ∨ n = .param id b := by
    obtain ⟨rfl, rfl⟩ | ⟨rfl, rfl⟩ | ⟨rfl, rfl⟩ := listed <;> cases body <;>
      simp only [TerminatorNode.operands, List.mem_cons, List.not_mem_nil, or_false, reduceCtorEq,
        false_or, BodyNode.terminator.injEq, List.map_nil, List.append_nil] at which <;>
      grind [TerminatorNode.dependencies]
  obtain ⟨id, rfl | rfl⟩ := own
  · exact dominates_refl _
  · exact dominates_refl _

theorem twoEntries_built : ∃ analysed,
    newCfg twoEntries.controlFlow 0 defaultForwardCfgBuild = .ok analysed ∧
    (∀ b ∈ [0, 1, 2], some b ∈ analysed.cfg.contents) ∧
    ¬ analysed.Below 1 (some 2) ∧ ¬ analysed.Below 2 (some 1) := by
  have summary : (newCfg twoEntries.controlFlow 0 defaultForwardCfgBuild).map
      (fun analysed => (analysed.cfg.contents,
        isDominated analysed.cfg analysed.tree (some 2) (some 1),
        isDominated analysed.cfg analysed.tree (some 1) (some 2))) =
      .ok ([some 2, some 1, some 0], .ok false, .ok false) := by
    decide +kernel
  cases built : newCfg twoEntries.controlFlow 0 defaultForwardCfgBuild with
  | error e =>
      rw [built] at summary
      cases summary
  | ok analysed =>
      rw [built] at summary
      simp only [Except.map, Except.ok.injEq, Prod.mk.injEq] at summary
      obtain ⟨contents, one, two⟩ := summary
      refine ⟨analysed, rfl, ?_, ?_, ?_⟩
      · rw [contents]
        decide
      · simp [AnalysedCFG.Below, one]
      · simp [AnalysedCFG.Below, two]

theorem freeFrontier_exact_twoEntries : ∃ analysed,
    newCfg twoEntries.controlFlow 0 defaultForwardCfgBuild = .ok analysed ∧
    ((∃ fuel set, freeFrontier twoEntries analysed fuel 0 = .ok set ∧
      ∀ v, v ∈ set ↔ twoEntries.FreeIn analysed 0 v) ↔
    ¬ ∃ c, Relation.ReflTransGen (twoEntries.Exits analysed) 0 c ∧
      Relation.TransGen (twoEntries.Exits analysed) c c) := by
  obtain ⟨analysed, built, inside, -⟩ := twoEntries_built
  exact ⟨analysed, built, freeFrontier_exact_iff twoEntries 0 defaultForwardCfgBuild analysed rfl
    rfl rfl built twoEntries_formed (twoEntries_wellScoped analysed) 0 (inside 0 (by decide))⟩

/-- Each of the two blocks needs the frontier of the other. -/
theorem freeFrontier_endless : ∃ analysed,
    newCfg twoEntries.controlFlow 0 defaultForwardCfgBuild = .ok analysed ∧
    twoEntries.Formed ∧ twoEntries.WellScoped analysed ∧ some 1 ∈ analysed.cfg.contents ∧
    ∀ fuel set, freeFrontier twoEntries analysed fuel 1 ≠ .ok set := by
  obtain ⟨analysed, built, inside, one, two⟩ := twoEntries_built
  have searched := newCfg_searched rfl rfl rfl built twoEntries_formed
    (twoEntries_wellScoped analysed)
  have exits : ∀ b c, some b ∈ analysed.cfg.contents → twoEntries.Names b c →
      ¬ analysed.Below b (some c) → twoEntries.Exits analysed b c := by
    intro b c insideB named notBelow
    refine ⟨b, [b], ⟨Walk.start, ?_⟩, named, notBelow⟩
    intro w member
    rw [List.mem_singleton.mp member]
    exact below_self searched insideB
  have first := exits 1 2 (inside 1 (by decide)) ⟨_, rfl, List.mem_singleton_self _⟩ one
  have second := exits 2 1 (inside 2 (by decide)) ⟨_, rfl, List.mem_singleton_self _⟩ two
  refine ⟨analysed, built, twoEntries_formed, twoEntries_wellScoped analysed,
    inside 1 (by decide), ?_⟩
  intro fuel set found
  have ends := acc_of_found searched (inside 1 (by decide)) found
  exact Search.acyclic_of_acc ends ⟨1, .refl, .tail (.single first) second⟩

end Shady
