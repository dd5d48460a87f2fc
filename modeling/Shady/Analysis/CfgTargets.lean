import Shady.Analysis.Lexical

/-!
# Edges to the blocks that a terminator names

With tail edges, and without a loop to stay in, every block that a terminator names becomes a
successor. Without the edges that merges and joins stand for, there are no other ones.
-/

set_option autoImplicit false

namespace Shady
open Fallible

/-- The blocks among the operands of a terminator. -/
def Terminator.targets (t : Terminator) : List AbsId :=
  t.jumps.map (·.target) ++ t.structuralTargets

section Requests
variable {ctx : CfgBuildContext} {constructs : Constructs}

theorem jumpRequest_covers {jump : Jump} {requests : List EdgeRequest}
    (isBlock : ctx.function.IsBlock jump.target)
    (asked : jumpRequest ctx constructs jump = .ok requests) :
    ∃ r ∈ requests, r.dst = jump.target := by
  obtain ⟨abs, got, plain⟩ := isBlock
  simp only [jumpRequest, got, plain, Bool.false_eq_true, if_false, Except.ok.injEq] at asked
  exact ⟨_, asked ▸ List.mem_singleton.mpr rfl, rfl⟩

/-- Every block that is named is asked for. -/
theorem edgeRequests_cover (tails : ctx.config.includeStructuredTails = true)
    {joinPointValues joinPointValues' : List (ValueId × AbsId)} {t : Terminator}
    {requests : List EdgeRequest}
    (asked : edgeRequests ctx constructs joinPointValues t = .ok (requests, joinPointValues'))
    {c : AbsId} (named : c ∈ t.targets) (isBlock : ctx.function.IsBlock c) :
    ∃ r ∈ requests, r.dst = c := by
  cases t with
  | jump j =>
      obtain rfl : c = j.target := by
        simpa [Terminator.targets, Terminator.jumps, Terminator.structuralTargets,
          Terminator.bodies, Terminator.tail?] using named
      obtain ⟨found, first, rest⟩ := bind_eq_ok.mp asked
      cases pure_eq_ok.mp rest
      exact jumpRequest_covers isBlock first
  | branch trueJump falseJump =>
      obtain ⟨onTrue, first, rest⟩ := bind_eq_ok.mp asked
      obtain ⟨onFalse, second, rest⟩ := bind_eq_ok.mp rest
      cases pure_eq_ok.mp rest
      have which : c = trueJump.target ∨ c = falseJump.target := by
        simpa [Terminator.targets, Terminator.jumps, Terminator.structuralTargets,
          Terminator.bodies, Terminator.tail?] using named
      cases which with
      | inl same =>
          subst same
          obtain ⟨r, member, dst⟩ := jumpRequest_covers isBlock first
          exact ⟨r, List.mem_append_left _ member, dst⟩
      | inr same =>
          subst same
          obtain ⟨r, member, dst⟩ := jumpRequest_covers isBlock second
          exact ⟨r, List.mem_append_right _ member, dst⟩
  | brSwitch caseJumps defaultJump =>
      obtain ⟨onCases, first, rest⟩ := bind_eq_ok.mp asked
      obtain ⟨onDefault, second, rest⟩ := bind_eq_ok.mp rest
      cases pure_eq_ok.mp rest
      have which : (∃ j ∈ caseJumps, j.target = c) ∨ c = defaultJump.target := by
        simpa [Terminator.targets, Terminator.jumps, Terminator.structuralTargets,
          Terminator.bodies, Terminator.tail?, or_and_right, exists_or, eq_comm] using named
      cases which with
      | inl inCases =>
          obtain ⟨j, member, rfl⟩ := inCases
          obtain ⟨found, inside, asked'⟩ := mem_mapM_of_mem first j member
          obtain ⟨r, listed, dst⟩ := jumpRequest_covers isBlock asked'
          exact ⟨r, List.mem_append_left _ (List.mem_flatten.mpr ⟨found, inside, listed⟩), dst⟩
      | inr same =>
          subst same
          obtain ⟨r, member, dst⟩ := jumpRequest_covers isBlock second
          exact ⟨r, List.mem_append_right _ member, dst⟩
  | ifInstr ifTrue ifFalse tail =>
      simp only [edgeRequests, Except.ok.injEq, Prod.mk.injEq] at asked
      obtain ⟨rfl, -⟩ := asked
      cases ifFalse <;>
      simp [Terminator.targets, Terminator.jumps, Terminator.structuralTargets,
        Terminator.bodies, Terminator.tail?, tailRequest, tails] at named ⊢ <;> grind
  | matchInstr cases defaultCase tail =>
      simp only [edgeRequests, Except.ok.injEq, Prod.mk.injEq] at asked
      obtain ⟨rfl, -⟩ := asked
      simp [Terminator.targets, Terminator.jumps, Terminator.structuralTargets,
        Terminator.bodies, Terminator.tail?, tailRequest, tails] at named ⊢
      grind
  | loopInstr body tail =>
      simp only [edgeRequests, Except.ok.injEq, Prod.mk.injEq] at asked
      obtain ⟨rfl, -⟩ := asked
      simp [Terminator.targets, Terminator.jumps, Terminator.structuralTargets,
        Terminator.bodies, Terminator.tail?, tailRequest, tails] at named ⊢
      grind
  | control inside tail =>
      simp only [edgeRequests] at asked
      split at asked
      · cases asked
      · split at asked
        · cases asked
        · simp only [Except.ok.injEq, Prod.mk.injEq] at asked
          obtain ⟨rfl, -⟩ := asked
          simp [Terminator.targets, Terminator.jumps, Terminator.structuralTargets,
            Terminator.bodies, Terminator.tail?, tailRequest, tails] at named ⊢
          grind
  | join _ => cases named
  | mergeSelection => cases named
  | mergeContinue => cases named
  | mergeBreak => cases named
  | tailCall => cases named
  | fnRet => cases named
  | unreachable => cases named

theorem jumpRequest_within {jump : Jump} {requests : List EdgeRequest}
    (asked : jumpRequest ctx constructs jump = .ok requests) :
    ∀ r ∈ requests, r.dst = jump.target := by
  unfold jumpRequest at asked
  split at asked
  · cases asked
  · split_ifs at asked
    · obtain rfl := Except.ok.inj asked
      simp
    · obtain rfl := Except.ok.inj asked
      intro r member
      rw [List.mem_singleton.mp member]

theorem mergeRequest_none (noExits : ctx.config.includeStructuredExits = false)
    {t : Terminator} {type : CFEdgeType} {target : Option AbsId} {condition : String}
    {requests : List EdgeRequest}
    (asked : mergeRequest ctx constructs t type target condition = .ok requests) :
    requests = [] := by
  unfold mergeRequest at asked
  split at asked
  · cases asked
  · rw [if_neg (by simp [noExits])] at asked
    exact (Except.ok.inj asked).symm

/-- Without exits, only blocks that are named are asked for. -/
theorem edgeRequests_within (noExits : ctx.config.includeStructuredExits = false)
    {joinPointValues joinPointValues' : List (ValueId × AbsId)} {t : Terminator}
    {requests : List EdgeRequest}
    (asked : edgeRequests ctx constructs joinPointValues t = .ok (requests, joinPointValues')) :
    ∀ r ∈ requests, r.dst ∈ t.targets := by
  have none_of_merge : ∀ {type target condition} {found : List EdgeRequest},
      mergeRequest ctx constructs t type target condition = .ok found → ∀ r ∈ found,
        r.dst ∈ t.targets := by
    intro type target condition found merged r member
    rw [mergeRequest_none noExits merged] at member
    cases member
  cases t with
  | jump j =>
      obtain ⟨found, first, rest⟩ := bind_eq_ok.mp asked
      cases pure_eq_ok.mp rest
      intro r member
      rw [jumpRequest_within first r member]
      exact List.mem_append_left _ List.mem_cons_self
  | branch trueJump falseJump =>
      obtain ⟨onTrue, first, rest⟩ := bind_eq_ok.mp asked
      obtain ⟨onFalse, second, rest⟩ := bind_eq_ok.mp rest
      cases pure_eq_ok.mp rest
      intro r member
      apply List.mem_append_left
      cases List.mem_append.mp member with
      | inl inTrue =>
          rw [jumpRequest_within first r inTrue]
          exact List.mem_cons_self
      | inr inFalse =>
          rw [jumpRequest_within second r inFalse]
          exact List.mem_cons_of_mem _ List.mem_cons_self
  | brSwitch caseJumps defaultJump =>
      obtain ⟨onCases, first, rest⟩ := bind_eq_ok.mp asked
      obtain ⟨onDefault, second, rest⟩ := bind_eq_ok.mp rest
      cases pure_eq_ok.mp rest
      intro r member
      apply List.mem_append_left
      cases List.mem_append.mp member with
      | inl inCases =>
          obtain ⟨found, listed, inside⟩ := List.mem_flatten.mp inCases
          obtain ⟨j, memberJ, asked'⟩ := mem_of_mapM first found listed
          rw [jumpRequest_within asked' r inside]
          exact List.mem_map_of_mem (List.mem_append_left _ memberJ)
      | inr inDefault =>
          rw [jumpRequest_within second r inDefault]
          exact List.mem_map_of_mem (List.mem_append_right _ List.mem_cons_self)
  | ifInstr ifTrue ifFalse tail =>
      simp only [edgeRequests, Except.ok.injEq, Prod.mk.injEq] at asked
      obtain ⟨rfl, -⟩ := asked
      cases ifFalse <;>
      simp [Terminator.targets, Terminator.jumps, Terminator.structuralTargets,
        Terminator.bodies, Terminator.tail?, tailRequest] <;> grind
  | matchInstr cases defaultCase tail =>
      simp only [edgeRequests, Except.ok.injEq, Prod.mk.injEq] at asked
      obtain ⟨rfl, -⟩ := asked
      simp [Terminator.targets, Terminator.jumps, Terminator.structuralTargets,
        Terminator.bodies, Terminator.tail?, tailRequest]
      grind
  | loopInstr body tail =>
      simp only [edgeRequests, Except.ok.injEq, Prod.mk.injEq] at asked
      obtain ⟨rfl, -⟩ := asked
      simp [Terminator.targets, Terminator.jumps, Terminator.structuralTargets,
        Terminator.bodies, Terminator.tail?, tailRequest]
      grind
  | control inside tail =>
      simp only [edgeRequests] at asked
      split at asked
      · cases asked
      · split at asked
        · cases asked
        · simp only [Except.ok.injEq, Prod.mk.injEq] at asked
          obtain ⟨rfl, -⟩ := asked
          simp [Terminator.targets, Terminator.jumps, Terminator.structuralTargets,
            Terminator.bodies, Terminator.tail?, tailRequest]
  | join joinPoint =>
      simp only [edgeRequests, noExits, Bool.false_eq_true, if_false, Except.ok.injEq,
        Prod.mk.injEq] at asked
      obtain ⟨rfl, -⟩ := asked
      simp
  | mergeSelection =>
      obtain ⟨found, merged, rest⟩ := bind_eq_ok.mp asked
      cases pure_eq_ok.mp rest
      exact none_of_merge merged
  | mergeContinue =>
      obtain ⟨found, merged, rest⟩ := bind_eq_ok.mp asked
      cases pure_eq_ok.mp rest
      exact none_of_merge merged
  | mergeBreak =>
      obtain ⟨found, merged, rest⟩ := bind_eq_ok.mp asked
      cases pure_eq_ok.mp rest
      exact none_of_merge merged
  | tailCall =>
      cases asked
      simp
  | fnRet =>
      cases asked
      simp
  | unreachable =>
      cases asked
      simp

end Requests

/-! ## Recorded edges -/

section Recorded
variable {ctx : CfgBuildContext}

/-- Every block named by a finished node is a successor. -/
def BuildState.Covers (ctx : CfgBuildContext) (state : BuildState) : Prop :=
  ∀ a ∈ state.contents, ∀ t, ctx.function.terminator a = some t → ∀ c ∈ t.targets,
    ctx.function.IsBlock c → state.Edge a c

/-- Edges lead to blocks that their source names. -/
def BuildState.Within (ctx : CfgBuildContext) (state : BuildState) : Prop :=
  ∀ a c, state.Edge a c → ∃ t, ctx.function.terminator a = some t ∧ c ∈ t.targets

/-- What a call of `get_or_enqueue` does to the edges. -/
structure Enqueues (ctx : CfgBuildContext) (state after : BuildState) : Prop where
  edges : ∀ p v, state.Edge p v → after.Edge p v
  covers : ctx.config.includeStructuredTails = true → ctx.config.lt = none →
    state.Covers ctx → after.Covers ctx
  within : ctx.config.includeStructuredExits = false → state.Within ctx → after.Within ctx

theorem addEdge_enqueues {enqueue : Constructs → AbsId → BuildState → Except CfgError BuildState}
    (spec : ∀ constructs abs state after, enqueue constructs abs state = .ok after →
      Enqueues ctx state after)
    {src : AbsId} {state after : BuildState} {request : EdgeRequest}
    (ran : addEdge ctx enqueue src state request = .ok after) :
    (∀ p v, state.Edge p v → after.Edge p v) ∧
      (ctx.config.lt = none → after.Edge src request.dst) ∧
      (ctx.config.includeStructuredTails = true → ctx.config.lt = none →
        state.Covers ctx → after.Covers ctx) ∧
      (ctx.config.includeStructuredExits = false →
        (∃ t, ctx.function.terminator src = some t ∧ request.dst ∈ t.targets) →
        state.Within ctx → after.Within ctx) := by
  unfold addEdge at ran
  split at ran
  · cases ran
  · split_ifs at ran
    obtain ⟨kept, test, ran⟩ := bind_eq_ok.mp ran
    cases kept with
    | false =>
        obtain rfl := pure_eq_ok.mp ran
        refine ⟨fun _ _ taken => taken, ?_, fun _ _ covers => covers, fun _ _ within => within⟩
        intro whole
        simp only [edgeKept, whole] at test
        cases test
    | true =>
        obtain ⟨middle, enqueued, ran⟩ := bind_eq_ok.mp ran
        obtain rfl := pure_eq_ok.mp ran
        have grown := spec _ _ _ _ enqueued
        have widen : ∀ p v, middle.Edge p v → (middle.record src request).Edge p v :=
          fun p v taken => (BuildState.edge_record middle src request p v).mpr (Or.inl taken)
        refine ⟨fun p v taken => widen p v (grown.edges p v taken), ?_, ?_, ?_⟩
        · exact fun _ => (BuildState.edge_record middle src request _ _).mpr (Or.inr ⟨rfl, rfl⟩)
        · intro tails whole covers a listed t ends c named isBlock
          exact widen a c (grown.covers tails whole covers a listed t ends c named isBlock)
        · intro noExits named within a c taken
          cases (BuildState.edge_record middle src request a c).mp taken with
          | inl old => exact grown.within noExits within a c old
          | inr new => exact new.1 ▸ new.2 ▸ named

theorem getOrEnqueue_enqueues (fuel : Nat) : ∀ constructs abs state after,
    getOrEnqueue ctx fuel constructs abs state = .ok after → Enqueues ctx state after := by
  induction fuel with
  | zero => exact fun _ _ _ _ ran => nomatch ran
  | succ fuel ih =>
      intro constructs abs state after ran
      unfold getOrEnqueue at ran
      split at ran
      · cases ran
      · rename_i abstraction got
        split_ifs at ran with wrong known
        · obtain rfl := Except.ok.inj ran
          exact ⟨fun _ _ taken => taken, fun _ _ covers => covers, fun _ within => within⟩
        · obtain ⟨middle, processed, ran⟩ := bind_eq_ok.mp ran
          obtain rfl := pure_eq_ok.mp ran
          have terminator : ctx.function.terminator abs = abstraction.body := by
            simp [Function.terminator, got]
          unfold processCfNode at processed
          cases body : abstraction.body with
          | none =>
              rw [body] at processed terminator
              obtain rfl := Except.ok.inj processed
              refine ⟨fun _ _ taken => taken, ?_, fun _ within => within⟩
              intro _ _ covers a listed t ends
              cases List.mem_append.mp listed with
              | inl old => exact covers a old t ends
              | inr new =>
                  rw [List.mem_singleton.mp new, terminator] at ends
                  cases ends
          | some t =>
              rw [body] at processed terminator
              obtain ⟨⟨requests, joinPointValues⟩, asked, looped⟩ := bind_eq_ok.mp processed
              have each := foldlM_each
                (fun s s' : BuildState => ∀ p v, s.Edge p v → s'.Edge p v)
                (fun (request : EdgeRequest) (s : BuildState) =>
                  ctx.config.lt = none → s.Edge abs request.dst)
                (fun _ _ _ taken => taken)
                (fun first second p v taken => second p v (first p v taken))
                (fun request s s' here later whole => later _ _ (here whole))
                (fun request _ s s' step => by
                  have added := addEdge_enqueues ih step
                  exact ⟨added.1, added.2.1⟩) looped
              refine ⟨each.1, ?_, ?_⟩
              · intro tails whole covers
                have kept := foldlM_keeps (fun s : BuildState => s.Covers ctx)
                  (fun request _ s s' covers step =>
                    (addEdge_enqueues ih step).2.2.1 tails whole covers)
                  (s := { state with nodes := abs :: state.nodes, joinPointValues }) covers looped
                intro a listed t' ends c named isBlock
                cases List.mem_append.mp listed with
                | inl old => exact kept a old t' ends c named isBlock
                | inr new =>
                    rw [List.mem_singleton.mp new, terminator] at ends
                    obtain rfl := Option.some.inj ends
                    obtain ⟨r, member, dst⟩ := edgeRequests_cover tails asked named isBlock
                    rw [List.mem_singleton.mp new, ← dst]
                    exact each.2 r member whole
              · intro noExits within
                have kept := foldlM_keeps (fun s : BuildState => s.Within ctx)
                  (fun request member s s' within step =>
                    (addEdge_enqueues ih step).2.2.2 noExits
                      ⟨t, terminator, edgeRequests_within noExits asked request member⟩ within)
                  (s := { state with nodes := abs :: state.nodes, joinPointValues }) within looped
                exact kept

end Recorded

/-- The blocks that a node of the graph names are its successors. -/
theorem buildCfg_covers {function : Function} {entry : AbsId} {config : CFGBuildConfig}
    {cfg : CFG} (built : buildCfg function entry config = .ok cfg)
    (tails : config.includeStructuredTails = true) (whole : config.lt = none) {a c : AbsId}
    {t : Terminator} (inside : some a ∈ cfg.contents) (ends : function.terminator a = some t)
    (named : c ∈ t.targets) (isBlock : function.IsBlock c) : cfg.Edge (some a) (some c) := by
  obtain ⟨state, explored, rest⟩ := bind_eq_ok.mp built
  obtain ⟨_, -, rest⟩ := bind_eq_ok.mp rest
  obtain rfl := pure_eq_ok.mp rest
  have enqueues := getOrEnqueue_enqueues _ _ _ _ _ explored
  have covers := enqueues.covers tails whole (fun a listed => absurd listed List.not_mem_nil)
  have listed : a ∈ state.contents := by
    simpa [BuildState.toCFG] using inside
  exact covers a listed t ends c named isBlock

/-- Without exits, the successors of a node are blocks that it names. -/
theorem buildCfg_within {function : Function} {entry : AbsId} {config : CFGBuildConfig}
    {cfg : CFG} (built : buildCfg function entry config = .ok cfg)
    (noExits : config.includeStructuredExits = false) {a c : AbsId}
    (taken : cfg.Edge (some a) (some c)) :
    ∃ t, function.terminator a = some t ∧ c ∈ t.targets := by
  obtain ⟨state, explored, rest⟩ := bind_eq_ok.mp built
  obtain ⟨_, -, rest⟩ := bind_eq_ok.mp rest
  obtain rfl := pure_eq_ok.mp rest
  have enqueues := getOrEnqueue_enqueues _ _ _ _ _ explored
  have within := enqueues.within noExits (fun a c taken => by
    obtain ⟨e, listed, -⟩ := taken
    cases listed)
  exact within a c taken

end Shady
