import Shady.Analysis.CfgTargets
import Shady.Analysis.DomtreeTotal

/-!
# The graphs that scoping is verified on

Without the edges that merges and joins stand for, a block with a tail edge is entered from
the head of its construct only, so that the dominator tree is exact.
-/

set_option autoImplicit false

namespace Shady
open Fallible Dominance

/-! ## Requests -/

section Requests
variable {ctx : CfgBuildContext} {constructs : Constructs}

/-- What is asked for besides tails and bodies: jumps, and the way around a body that is not
there, which goes to the tail. -/
def Accompanied (requests : List EdgeRequest) (r : EdgeRequest) : Prop :=
  r.type ≠ .structuredLoopContinue ∧ (r.type = .structuredLeaveBodyEdge →
    ∃ tail ∈ requests, tail.type = .structuredTailEdge ∧ tail.dst = r.dst)

theorem jumpRequest_accompanied {jump : Jump} {requests all : List EdgeRequest}
    (asked : jumpRequest ctx constructs jump = .ok requests) :
    ∀ r ∈ requests, Accompanied all r := by
  unfold jumpRequest at asked
  split at asked
  · cases asked
  · split_ifs at asked
    · obtain rfl := Except.ok.inj asked
      simp
    · obtain rfl := Except.ok.inj asked
      intro r member
      rw [List.mem_singleton.mp member]
      exact ⟨nofun, nofun⟩

theorem edgeRequests_accompanied (noExits : ctx.config.includeStructuredExits = false)
    (tails : ctx.config.includeStructuredTails = true)
    {joinPointValues joinPointValues' : List (ValueId × AbsId)} {t : Terminator}
    {requests : List EdgeRequest}
    (asked : edgeRequests ctx constructs joinPointValues t = .ok (requests, joinPointValues')) :
    ∀ r ∈ requests, Accompanied requests r := by
  have none_of_merge : ∀ {type target condition} {found : List EdgeRequest},
      mergeRequest ctx constructs t type target condition = .ok found → ∀ r ∈ found,
        Accompanied found r := by
    intro type target condition found merged r member
    rw [mergeRequest_none noExits merged] at member
    cases member
  cases t with
  | jump j =>
      obtain ⟨found, first, rest⟩ := bind_eq_ok.mp asked
      cases pure_eq_ok.mp rest
      exact jumpRequest_accompanied first
  | branch trueJump falseJump =>
      obtain ⟨onTrue, first, rest⟩ := bind_eq_ok.mp asked
      obtain ⟨onFalse, second, rest⟩ := bind_eq_ok.mp rest
      cases pure_eq_ok.mp rest
      intro r member
      cases List.mem_append.mp member with
      | inl inTrue => exact jumpRequest_accompanied first r inTrue
      | inr inFalse => exact jumpRequest_accompanied second r inFalse
  | brSwitch caseJumps defaultJump =>
      obtain ⟨onCases, first, rest⟩ := bind_eq_ok.mp asked
      obtain ⟨onDefault, second, rest⟩ := bind_eq_ok.mp rest
      cases pure_eq_ok.mp rest
      intro r member
      cases List.mem_append.mp member with
      | inl inCases =>
          obtain ⟨found, listed, inside⟩ := List.mem_flatten.mp inCases
          obtain ⟨j, memberJ, asked'⟩ := mem_of_mapM first found listed
          exact jumpRequest_accompanied asked' r inside
      | inr inDefault => exact jumpRequest_accompanied second r inDefault
  | ifInstr ifTrue ifFalse tail =>
      simp only [edgeRequests, Except.ok.injEq, Prod.mk.injEq] at asked
      obtain ⟨rfl, -⟩ := asked
      cases ifFalse <;> simp [Accompanied, tailRequest, tails]
  | matchInstr cases defaultCase tail =>
      simp only [edgeRequests, Except.ok.injEq, Prod.mk.injEq] at asked
      obtain ⟨rfl, -⟩ := asked
      simp only [tailRequest, tails, if_true, List.mem_append, List.mem_map, List.mem_singleton]
      rintro r (rfl | ⟨body, -, rfl⟩)
      · exact ⟨(fun known => by cases known), fun known => by cases known⟩
      · exact ⟨(fun known => by cases known), fun known => by cases known⟩
  | loopInstr body tail =>
      simp only [edgeRequests, Except.ok.injEq, Prod.mk.injEq] at asked
      obtain ⟨rfl, -⟩ := asked
      simp [Accompanied, tailRequest, tails]
  | control inside tail =>
      simp only [edgeRequests] at asked
      split at asked
      · cases asked
      · split at asked
        · cases asked
        · simp only [Except.ok.injEq, Prod.mk.injEq] at asked
          obtain ⟨rfl, -⟩ := asked
          simp [Accompanied, tailRequest, tails]
  | join joinPoint =>
      simp only [edgeRequests, noExits, Bool.false_eq_true, if_false, Except.ok.injEq,
        Prod.mk.injEq] at asked
      obtain ⟨rfl, -⟩ := asked
      simp
  | mergeSelection =>
      obtain ⟨found, merged, rest⟩ := bind_eq_ok.mp asked
      cases pure_eq_ok.mp rest
      exact none_of_merge merged
  | mergeContinue =>
      obtain ⟨found, merged, rest⟩ := bind_eq_ok.mp asked
      cases pure_eq_ok.mp rest
      exact none_of_merge merged
  | mergeBreak =>
      obtain ⟨found, merged, rest⟩ := bind_eq_ok.mp asked
      cases pure_eq_ok.mp rest
      exact none_of_merge merged
  | tailCall =>
      cases asked
      simp
  | fnRet =>
      cases asked
      simp
  | unreachable =>
      cases asked
      simp

end Requests

/-! ## Recorded edges -/

section Recorded
variable {ctx : CfgBuildContext}

/-- An edge that leaves a construct goes along with the tail edge of the construct. -/
def BuildState.Paired (state : BuildState) (n : AbsId) (e : CFEdge) : Prop :=
  e.type ≠ .structuredLoopContinue ∧ (e.type = .structuredLeaveBodyEdge →
    ∃ tail ∈ state.predEdges n, tail.type = .structuredTailEdge ∧ tail.src = e.src)

/-- The edges that are new in `after` are paired, or among those asked for. -/
structure GrownBy (asked : AbsId → CFEdge → Prop) (state after : BuildState) : Prop where
  kept : ∀ n, ∀ e ∈ state.predEdges n, e ∈ after.predEdges n
  fresh : ∀ n, ∀ e ∈ after.predEdges n, e ∈ state.predEdges n ∨ after.Paired n e ∨ asked n e

variable {asked : AbsId → CFEdge → Prop} {first second third : BuildState}

theorem BuildState.Paired.mono {n : AbsId} {e : CFEdge} (paired : first.Paired n e)
    (kept : ∀ n, ∀ e ∈ first.predEdges n, e ∈ second.predEdges n) : second.Paired n e := by
  refine ⟨paired.1, fun leaves => ?_⟩
  obtain ⟨tail, listed, isTail, src⟩ := paired.2 leaves
  exact ⟨tail, kept n tail listed, isTail, src⟩

theorem GrownBy.refl (state : BuildState) : GrownBy asked state state where
  kept := fun _ _ listed => listed
  fresh := fun _ _ listed => Or.inl listed

theorem GrownBy.trans (before : GrownBy asked first second) (after : GrownBy asked second third) :
    GrownBy asked first third where
  kept := fun n e listed => after.kept n e (before.kept n e listed)
  fresh := by
    intro n e listed
    obtain inSecond | new := after.fresh n e listed
    · obtain inFirst | paired | isAsked := before.fresh n e inSecond
      · exact Or.inl inFirst
      · exact Or.inr (Or.inl (paired.mono after.kept))
      · exact Or.inr (Or.inr isAsked)
    · exact Or.inr new

/-- The edges that stand for the requests of a block. -/
def AskedFrom (src : AbsId) (requests : List EdgeRequest) (n : AbsId) (e : CFEdge) : Prop :=
  ∃ r ∈ requests, n = r.dst ∧ e.type = r.type ∧ e.src = some src

theorem addEdge_grown {enqueue : Constructs → AbsId → BuildState → Except CfgError BuildState}
    (spec : ∀ constructs abs state after, enqueue constructs abs state = .ok after →
      GrownBy (fun _ _ => False) state after)
    {src : AbsId} {state after : BuildState} {requests : List EdgeRequest}
    {request : EdgeRequest} (member : request ∈ requests)
    (ran : addEdge ctx enqueue src state request = .ok after) :
    GrownBy (AskedFrom src requests) state after ∧ (ctx.config.lt = none →
      ∃ e ∈ after.predEdges request.dst, e.type = request.type ∧ e.src = some src) := by
  unfold addEdge at ran
  split at ran
  · cases ran
  · split_ifs at ran
    obtain ⟨kept, test, ran⟩ := bind_eq_ok.mp ran
    cases kept with
    | false =>
        obtain rfl := pure_eq_ok.mp ran
        refine ⟨GrownBy.refl _, fun whole => ?_⟩
        simp only [edgeKept, whole] at test
        cases test
    | true =>
        obtain ⟨middle, enqueued, ran⟩ := bind_eq_ok.mp ran
        obtain rfl := pure_eq_ok.mp ran
        have grown := spec _ _ _ _ enqueued
        have recorded : ∀ n e, e ∈ (middle.record src request).predEdges n ↔
            e ∈ middle.predEdges n ∨ (n = request.dst ∧
              e = ⟨request.type, some src, some request.dst, request.terminator.asJump,
                some request.terminator⟩) := by
          intro n e
          exact BuildState.mem_appendAt _ _ _ _ _
        have widen : ∀ n, ∀ e ∈ middle.predEdges n, e ∈ (middle.record src request).predEdges n :=
          fun n e listed => (recorded n e).mpr (Or.inl listed)
        refine ⟨⟨fun n e listed => widen n e (grown.kept n e listed), ?_⟩, fun _ => ?_⟩
        · intro n e listed
          cases (recorded n e).mp listed with
          | inl old =>
              obtain inState | paired | nothing := grown.fresh n e old
              · exact Or.inl inState
              · exact Or.inr (Or.inl (paired.mono widen))
              · cases nothing
          | inr new =>
              obtain ⟨dst, rfl⟩ := new
              exact Or.inr (Or.inr ⟨request, member, dst, rfl, rfl⟩)
        · exact ⟨_, (recorded _ _).mpr (Or.inr ⟨rfl, rfl⟩), rfl, rfl⟩

theorem getOrEnqueue_grown (noExits : ctx.config.includeStructuredExits = false)
    (tails : ctx.config.includeStructuredTails = true) (whole : ctx.config.lt = none)
    (fuel : Nat) : ∀ constructs abs state after,
    getOrEnqueue ctx fuel constructs abs state = .ok after →
      GrownBy (fun _ _ => False) state after := by
  induction fuel with
  | zero => exact fun _ _ _ _ ran => nomatch ran
  | succ fuel ih =>
      intro constructs abs state after ran
      unfold getOrEnqueue at ran
      split at ran
      · cases ran
      · rename_i abstraction got
        split_ifs at ran with wrong known
        · obtain rfl := Except.ok.inj ran
          exact GrownBy.refl _
        · obtain ⟨middle, processed, ran⟩ := bind_eq_ok.mp ran
          obtain rfl := pure_eq_ok.mp ran
          unfold processCfNode at processed
          cases body : abstraction.body with
          | none =>
              rw [body] at processed
              obtain rfl := Except.ok.inj processed
              exact ⟨fun _ _ listed => listed, fun _ _ listed => Or.inl listed⟩
          | some t =>
              rw [body] at processed
              obtain ⟨⟨requests, joinPointValues⟩, isAsked, looped⟩ := bind_eq_ok.mp processed
              obtain ⟨grown, each⟩ := foldlM_each (GrownBy (AskedFrom abs requests))
                (fun (r : EdgeRequest) (s : BuildState) =>
                  ∃ e ∈ s.predEdges r.dst, e.type = r.type ∧ e.src = some abs)
                GrownBy.refl GrownBy.trans
                (fun r s s' here later => by
                  obtain ⟨e, listed, rest⟩ := here
                  exact ⟨e, later.kept _ e listed, rest⟩)
                (fun r member s s' step => by
                  have added := addEdge_grown ih member step
                  exact ⟨added.1, added.2 whole⟩) looped
              refine ⟨grown.kept, ?_⟩
              intro n e listed
              obtain old | paired | ⟨r, member, rfl, type, src⟩ := grown.fresh n e listed
              · exact Or.inl old
              · exact Or.inr (Or.inl paired)
              · -- by now all requests of the block have been recorded
                have accompanied := edgeRequests_accompanied noExits tails isAsked r member
                refine Or.inr (Or.inl ⟨type ▸ accompanied.1, fun leaves => ?_⟩)
                obtain ⟨tail, inRequests, isTail, dst⟩ := accompanied.2 (type ▸ leaves)
                obtain ⟨e', listed', type', src'⟩ := each tail inRequests
                rw [dst] at listed'
                exact ⟨e', listed', type'.trans isTail, src'.trans src.symm⟩

end Recorded

/-! ## Tails -/

theorem eq_of_countEdges_le_one {edges : List CFEdge} {types : List CFEdgeType}
    (few : countEdges edges types ≤ 1) {e e' : CFEdge} (member : e ∈ edges) (type : e.type ∈ types)
    (member' : e' ∈ edges) (type' : e'.type ∈ types) : e = e' := by
  unfold countEdges at few
  rw [List.countP_eq_length_filter] at few
  have listed : e ∈ edges.filter fun edge => edge.type ∈ types :=
    List.mem_filter.mpr ⟨member, decide_eq_true type⟩
  have listed' : e' ∈ edges.filter fun edge => edge.type ∈ types :=
    List.mem_filter.mpr ⟨member', decide_eq_true type'⟩
  obtain ⟨only, isOnly⟩ := List.length_eq_one_iff.mp
    (Nat.le_antisymm few (List.length_pos_of_mem listed))
  rw [isOnly] at listed listed'
  rw [List.mem_singleton.mp listed, List.mem_singleton.mp listed']

/-- Where a tail edge enters a node, no jump and no other construct does. -/
theorem validateNode_tail {cfg : CFG} {n : CFNodeId} (valid : validateNode cfg n = .ok ())
    (nonroot : n ≠ cfg.entry) {tail : CFEdge} (listed : tail ∈ cfg.predEdges n)
    (isTail : tail.type = .structuredTailEdge) {e : CFEdge} (member : e ∈ cfg.predEdges n) :
    e = tail ∨ e.type = .structuredLeaveBodyEdge ∨ e.type = .structuredLoopContinue := by
  have uses : 0 < countEdges (cfg.predEdges n) [.structuredEnterBodyEdge, .structuredTailEdge] :=
    List.countP_pos_iff.mpr ⟨tail, listed, by simp [isTail]⟩
  unfold validateNode at valid
  rw [if_pos ⟨nonroot, uses⟩] at valid
  split_ifs at valid with many jumps
  have few := Nat.not_lt.mp many
  have noJumps : countEdges (cfg.predEdges n) [.jumpEdge] = 0 := Nat.eq_zero_of_not_pos jumps
  have once : e.type ∈ [CFEdgeType.structuredEnterBodyEdge, .structuredTailEdge] → e = tail :=
    fun type => eq_of_countEdges_le_one few member type listed (by simp [isTail])
  cases type : e.type with
  | jumpEdge =>
      have none := List.countP_eq_zero.mp noJumps e member
      simp [type] at none
  | structuredEnterBodyEdge => exact Or.inl (once (by simp [type]))
  | structuredTailEdge => exact Or.inl (once (by simp [type]))
  | structuredLeaveBodyEdge => exact Or.inr (Or.inl rfl)
  | structuredLoopContinue => exact Or.inr (Or.inr rfl)

theorem buildCfg_tails {function : Function} {entry : AbsId} {config : CFGBuildConfig} {cfg : CFG}
    (built : buildCfg function entry config = .ok cfg)
    (noExits : config.includeStructuredExits = false)
    (tails : config.includeStructuredTails = true) (whole : config.lt = none)
    (rpo : RpoState) : TailsEnteredFromDominator cfg rpo := by
  obtain ⟨state, explored, rest⟩ := bind_eq_ok.mp built
  obtain ⟨_, valid, rest⟩ := bind_eq_ok.mp rest
  obtain rfl := pure_eq_ok.mp rest
  have bare : (CfgBuildContext.mk function entry config).config.includeStructuredExits = false :=
    noExits
  have grown := getOrEnqueue_grown bare tails whole _ _ _ _ _ explored
  rintro n inside nonroot ⟨tail, listed, isTail⟩ first found e member
  obtain ⟨abs, -, rfl⟩ := List.mem_map.mp inside
  have validNode := forM_eq_ok.mp valid (some abs) inside
  -- all predecessors are the head of the construct
  have sameSource : ∀ e ∈ (state.toCFG entry).predEdges (some abs), e.src = tail.src := by
    intro e member
    obtain same | leaves | continues := validateNode_tail validNode nonroot listed isTail member
    · rw [same]
    · obtain old | paired | nothing := grown.fresh abs e member
      · cases old
      · obtain ⟨tail', listed', isTail', src⟩ := paired.2 leaves
        obtain same | wrong | wrong := validateNode_tail validNode nonroot listed isTail listed'
        · rw [← src, same]
        · rw [isTail'] at wrong
          cases wrong
        · rw [isTail'] at wrong
          cases wrong
      · cases nothing
    · obtain old | paired | nothing := grown.fresh abs e member
      · cases old
      · exact absurd continues paired.1
      · cases nothing
  rw [sameSource e member, sameSource first (List.mem_of_find?_eq_some found)]
  exact dominates_refl _

/-- Without structured exits, dominance queries are exact. -/
theorem newCfg_exact {function : Function} {entry : AbsId} {config : CFGBuildConfig}
    {analysed : AnalysedCFG} (built : newCfg function entry config = .ok analysed)
    (forward : config.flipped = false) (noExits : config.includeStructuredExits = false)
    (tails : config.includeStructuredTails = true) (whole : config.lt = none) :
    analysed.tree.Exact analysed.cfg := by
  obtain ⟨cfg, rpo, tree⟩ := analysed
  obtain ⟨cfg', graph, rest⟩ := bind_eq_ok.mp built
  obtain ⟨same, unflipped, rest⟩ := bind_eq_ok.mp rest
  rw [if_neg (by simp [forward])] at unflipped
  obtain rfl := Except.ok.inj unflipped
  obtain ⟨rpo', numbered, rest⟩ := bind_eq_ok.mp rest
  obtain ⟨tree', computed, rest⟩ := bind_eq_ok.mp rest
  cases pure_eq_ok.mp rest
  obtain ⟨wellFormed, reachable⟩ := buildCfg_spec graph
  obtain ⟨rpo', numbered', numbers⟩ := computeRpo_numbers wellFormed reachable
  obtain rfl := Except.ok.inj (numbered.symm.trans numbered')
  obtain ⟨tree', computed', exact⟩ := computeDomtree_exact numbers wellFormed reachable
    (buildCfg_tails graph noExits tails whole rpo)
  obtain rfl := Except.ok.inj (computed.symm.trans computed')
  exact exact

end Shady
