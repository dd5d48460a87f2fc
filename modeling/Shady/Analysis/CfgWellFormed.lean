import Shady.Analysis.Cfg
import Shady.Library.Dominance
import Shady.Library.Fallible

/-!
# What every built graph satisfies

Both ends of an edge list it, the ends are nodes of the graph, no node is listed
twice, and every node can be reached from the entry. The builder keeps the first
three after each edge; reachability holds for the nodes that a call of
`get_or_enqueue` adds, from the node it was called for.
-/

set_option autoImplicit false

namespace Shady
open Dominance Fallible

/-- The edge relation of a graph. -/
def CFG.Edge (cfg : CFG) (p v : CFNodeId) : Prop := ∃ e ∈ cfg.succEdges p, e.dst = v

structure CFG.WellFormed (cfg : CFG) : Prop where
  nodup : cfg.contents.Nodup
  entry_mem : cfg.entry ∈ cfg.contents
  succ_src : ∀ n, ∀ e ∈ cfg.succEdges n, e.src = n
  pred_dst : ∀ n, ∀ e ∈ cfg.predEdges n, e.dst = n
  succ_mem : ∀ n, ∀ e ∈ cfg.succEdges n, n ∈ cfg.contents ∧ e.dst ∈ cfg.contents
  listed : ∀ e, e ∈ cfg.succEdges e.src ↔ e ∈ cfg.predEdges e.dst

theorem CFG.WellFormed.edge_iff_pred {cfg : CFG} (wellFormed : cfg.WellFormed)
    (p v : CFNodeId) : cfg.Edge p v ↔ ∃ e ∈ cfg.predEdges v, e.src = p := by
  constructor
  · rintro ⟨e, member, rfl⟩
    obtain rfl := wellFormed.succ_src p e member
    exact ⟨e, (wellFormed.listed e).mp member, rfl⟩
  · rintro ⟨e, member, rfl⟩
    obtain rfl := wellFormed.pred_dst v e member
    exact ⟨e, (wellFormed.listed e).mpr member, rfl⟩

theorem CFG.WellFormed.edge_mem {cfg : CFG} (wellFormed : cfg.WellFormed)
    {p v : CFNodeId} (taken : cfg.Edge p v) : p ∈ cfg.contents ∧ v ∈ cfg.contents := by
  obtain ⟨e, member, rfl⟩ := taken
  exact wellFormed.succ_mem p e member

theorem CFG.WellFormed.reachable_mem {cfg : CFG} (wellFormed : cfg.WellFormed)
    {v : CFNodeId} (reachable : Reachable cfg.Edge cfg.entry v) : v ∈ cfg.contents := by
  obtain ⟨visited, walk⟩ := reachable
  cases walk with
  | start => exact wellFormed.entry_mem
  | step before taken => exact (wellFormed.edge_mem taken).2

/-! ## The builder -/

namespace BuildState

def Edge (state : BuildState) (p v : AbsId) : Prop :=
  ∃ e ∈ state.succEdges p, e.dst = some v

/-- The part of well-formedness that holds while the graph grows. -/
structure Consistent (state : BuildState) : Prop where
  nodup : state.contents.Nodup
  contents_nodes : ∀ a ∈ state.contents, a ∈ state.nodes
  succ : ∀ a, ∀ e ∈ state.succEdges a, e.src = some a ∧ a ∈ state.nodes ∧
    ∃ b, e.dst = some b ∧ b ∈ state.nodes ∧ e ∈ state.predEdges b
  pred : ∀ b, ∀ e ∈ state.predEdges b, e.dst = some b ∧
    ∃ a, e.src = some a ∧ e ∈ state.succEdges a

theorem empty_consistent : empty.Consistent where
  nodup := List.nodup_nil
  contents_nodes := by simp [empty]
  succ := by simp [empty]
  pred := by simp [empty]

/-- `after` has all of `before`; what it adds is processed and reachable from `from`. -/
structure Extends (root : AbsId) (before after : BuildState) : Prop where
  nodes : ∀ a ∈ before.nodes, a ∈ after.nodes
  edges : ∀ p v, before.Edge p v → after.Edge p v
  contents : ∀ a ∈ before.nodes, (a ∈ after.contents ↔ a ∈ before.contents)
  finished : ∀ a ∈ after.nodes, a ∉ before.nodes → a ∈ after.contents
  reached : ∀ a ∈ after.nodes, a ∉ before.nodes →
    Relation.ReflTransGen after.Edge root a

theorem Extends.refl (root : AbsId) (state : BuildState) : Extends root state state where
  nodes := fun _ member => member
  edges := fun _ _ taken => taken
  contents := fun _ _ => Iff.rfl
  finished := fun _ member fresh => absurd member fresh
  reached := fun _ member fresh => absurd member fresh

theorem mem_appendAt {K E : Type} [DecidableEq K] (lists : K → List E) (key k : K)
    (value e : E) : e ∈ appendAt lists key value k ↔ e ∈ lists k ∨ (k = key ∧ e = value) := by
  unfold appendAt
  split_ifs with same <;> simp [same]

theorem edge_record (state : BuildState) (src : AbsId) (request : EdgeRequest) (p v : AbsId) :
    (state.record src request).Edge p v ↔
      state.Edge p v ∨ (p = src ∧ v = request.dst) := by
  simp only [Edge, record, mem_appendAt]
  constructor
  · rintro ⟨e, old | ⟨rfl, rfl⟩, dst⟩
    · exact Or.inl ⟨e, old, dst⟩
    · exact Or.inr ⟨rfl, (Option.some.inj dst).symm⟩
  · rintro (⟨e, old, dst⟩ | ⟨rfl, rfl⟩)
    · exact ⟨e, Or.inl old, dst⟩
    · exact ⟨_, Or.inr ⟨rfl, rfl⟩, rfl⟩

theorem record_consistent {state : BuildState} (consistent : state.Consistent)
    {src : AbsId} {request : EdgeRequest} (srcKnown : src ∈ state.nodes)
    (dstKnown : request.dst ∈ state.nodes) : (state.record src request).Consistent where
  nodup := consistent.nodup
  contents_nodes := consistent.contents_nodes
  succ := by
    intro a e member
    simp only [record, mem_appendAt] at member ⊢
    rcases member with old | ⟨rfl, rfl⟩
    · obtain ⟨srcOf, known, b, dst, dstIn, listed⟩ := consistent.succ a e old
      exact ⟨srcOf, known, b, dst, dstIn, Or.inl listed⟩
    · exact ⟨rfl, srcKnown, request.dst, rfl, dstKnown, Or.inr ⟨rfl, rfl⟩⟩
  pred := by
    intro b e member
    simp only [record, mem_appendAt] at member ⊢
    rcases member with old | ⟨rfl, rfl⟩
    · obtain ⟨dst, a, srcOf, listed⟩ := consistent.pred b e old
      exact ⟨dst, a, srcOf, Or.inl listed⟩
    · exact ⟨rfl, src, rfl, Or.inr ⟨rfl, rfl⟩⟩

end BuildState

section Builder
variable (ctx : CfgBuildContext)
open BuildState

/-- Where tails are not asked for, no edge request is one. -/
theorem edgeRequests_no_tail (noTails : ctx.config.includeStructuredTails = false)
    {constructs : Constructs} {joinPointValues after : List (ValueId × AbsId)}
    {terminator : Terminator} {requests : List EdgeRequest}
    (run : edgeRequests ctx constructs joinPointValues terminator = .ok (requests, after)) :
    ∀ request ∈ requests, request.type ≠ .structuredTailEdge := by
  have jumps : ∀ jump edges, jumpRequest ctx constructs jump = .ok edges →
      ∀ request ∈ edges, request.type ≠ .structuredTailEdge := by
    intro jump edges asked request member
    unfold jumpRequest at asked
    split at asked
    · simp at asked
    · split_ifs at asked
      · simp [← Except.ok.inj asked] at member
      · simp [← Except.ok.inj asked] at member
        simp [member]
  have merges : ∀ type target condition edges, type ≠ .structuredTailEdge →
      mergeRequest ctx constructs terminator type target condition = .ok edges →
      ∀ request ∈ edges, request.type ≠ .structuredTailEdge := by
    intro type target condition edges other asked request member
    unfold mergeRequest at asked
    split at asked
    · simp at asked
    · split_ifs at asked
      · simp [← Except.ok.inj asked] at member
        simpa [member] using other
      · simp [← Except.ok.inj asked] at member
  cases terminator with
  | jump jump =>
      simp only [edgeRequests, bind_eq_ok, pure_eq_ok, Prod.mk.injEq] at run
      obtain ⟨edges, asked, rfl, -⟩ := run
      exact jumps jump edges asked
  | branch trueJump falseJump =>
      simp only [edgeRequests, bind_eq_ok, pure_eq_ok, Prod.mk.injEq] at run
      obtain ⟨onTrue, askedTrue, onFalse, askedFalse, rfl, -⟩ := run
      intro request member
      rcases List.mem_append.mp member with left | right
      · exact jumps trueJump onTrue askedTrue request left
      · exact jumps falseJump onFalse askedFalse request right
  | brSwitch caseJumps defaultJump =>
      simp only [edgeRequests, bind_eq_ok, pure_eq_ok, Prod.mk.injEq] at run
      obtain ⟨onCases, askedCases, onDefault, askedDefault, rfl, -⟩ := run
      intro request member
      rcases List.mem_append.mp member with left | right
      · obtain ⟨edges, listed, inEdges⟩ := List.mem_flatten.mp left
        obtain ⟨jump, -, asked⟩ := mem_of_mapM askedCases edges listed
        exact jumps jump edges asked request inEdges
      · exact jumps defaultJump onDefault askedDefault request right
  | ifInstr ifTrue ifFalse tail =>
      simp only [edgeRequests, tailRequest, noTails, Except.ok.injEq, Prod.mk.injEq] at run
      obtain ⟨rfl, -⟩ := run
      cases ifFalse <;> simp
  | matchInstr cases defaultCase tail =>
      simp only [edgeRequests, tailRequest, noTails, Except.ok.injEq, Prod.mk.injEq] at run
      obtain ⟨rfl, -⟩ := run
      simp
      grind
  | loopInstr body tail =>
      simp only [edgeRequests, tailRequest, noTails, Except.ok.injEq, Prod.mk.injEq] at run
      obtain ⟨rfl, -⟩ := run
      simp
  | control inside tail =>
      simp only [edgeRequests] at run
      split at run
      · simp at run
      · split at run
        · simp at run
        · simp only [tailRequest, noTails, Except.ok.injEq, Prod.mk.injEq] at run
          obtain ⟨rfl, -⟩ := run
          simp
  | join joinPoint =>
      simp only [edgeRequests] at run
      split_ifs at run
      · split at run
        · simp only [Except.ok.injEq, Prod.mk.injEq] at run
          obtain ⟨rfl, -⟩ := run
          simp
        · simp only [Except.ok.injEq, Prod.mk.injEq] at run
          obtain ⟨rfl, -⟩ := run
          simp
      · simp only [Except.ok.injEq, Prod.mk.injEq] at run
        obtain ⟨rfl, -⟩ := run
        simp
  | mergeSelection | mergeContinue | mergeBreak =>
      simp only [edgeRequests, bind_eq_ok, pure_eq_ok, Prod.mk.injEq] at run
      obtain ⟨edges, asked, rfl, -⟩ := run
      exact merges _ _ _ edges (by simp) asked
  | tailCall | fnRet | unreachable =>
      simp only [edgeRequests, Except.ok.injEq, Prod.mk.injEq] at run
      obtain ⟨rfl, -⟩ := run
      simp

/-- No edge of the state is a tail edge. -/
def BuildState.NoTails (state : BuildState) : Prop :=
  ∀ a, ∀ e ∈ state.succEdges a, e.type ≠ .structuredTailEdge

theorem getOrEnqueue_noTails (noTails : ctx.config.includeStructuredTails = false)
    (fuel : Nat) : ∀ constructs abs state after, state.NoTails →
      getOrEnqueue ctx fuel constructs abs state = .ok after → after.NoTails := by
  induction fuel with
  | zero => intro constructs abs state after _ run; simp [getOrEnqueue] at run
  | succ fuel ih =>
      intro constructs abs state after clean run
      unfold getOrEnqueue at run
      split at run
      · simp at run
      · split_ifs at run with wrongFunction found
        · exact Except.ok.inj run ▸ clean
        · rw [bind_eq_ok] at run
          obtain ⟨middle, processed, run⟩ := run
          obtain rfl := pure_eq_ok.mp run
          suffices kept : middle.NoTails from kept
          unfold processCfNode at processed
          split at processed
          · exact Except.ok.inj processed ▸ clean
          · rw [bind_eq_ok] at processed
            obtain ⟨⟨requests, joinPointValues⟩, asked, looped⟩ := processed
            have plain := edgeRequests_no_tail ctx noTails asked
            have begin : BuildState.NoTails
                { state with nodes := abs :: state.nodes, joinPointValues } := clean
            refine foldlM_keeps BuildState.NoTails ?_ begin looped
            intro request member before next kept step
            unfold addEdge at step
            split at step
            · simp at step
            · split_ifs at step
              rw [bind_eq_ok] at step
              obtain ⟨inside, -, step⟩ := step
              split_ifs at step
              · rw [bind_eq_ok] at step
                obtain ⟨grown, enqueued, step⟩ := step
                obtain rfl := pure_eq_ok.mp step
                intro a e listed
                rcases (mem_appendAt _ _ _ _ _).mp listed with old | ⟨-, rfl⟩
                · exact ih _ _ _ _ kept enqueued a e old
                · exact plain request member
              · exact pure_eq_ok.mp step ▸ kept

/-- What a call of `get_or_enqueue` guarantees. -/
def EnqueueSpec
    (enqueue : Constructs → AbsId → BuildState → Except CfgError BuildState) : Prop :=
  ∀ constructs abs state after, state.Consistent →
    enqueue constructs abs state = .ok after →
    after.Consistent ∧ abs ∈ after.nodes ∧ Extends abs state after

variable {ctx}

/-- One more edge from `src`, whose processing started in `before`. -/
theorem addEdge_spec {enqueue : Constructs → AbsId → BuildState → Except CfgError BuildState}
    (spec : EnqueueSpec enqueue) {src : AbsId} {before state after : BuildState}
    {request : EdgeRequest} (srcKnown : src ∈ before.nodes) (consistent : state.Consistent)
    (extended : Extends src before state)
    (run : addEdge ctx enqueue src state request = .ok after) :
    after.Consistent ∧ Extends src before after := by
  unfold addEdge at run
  cases resolved : ctx.function.get request.dst with
  | none => simp [resolved] at run
  | some dstAbs =>
      simp only [resolved] at run
      split_ifs at run with isFunction
      rw [bind_eq_ok] at run
      obtain ⟨kept, -, run⟩ := run
      cases kept with
      | false =>
          obtain rfl := pure_eq_ok.mp run
          exact ⟨consistent, extended⟩
      | true =>
          simp only [if_true] at run
          rw [bind_eq_ok] at run
          obtain ⟨middle, enqueued, run⟩ := run
          obtain rfl := pure_eq_ok.mp run
          obtain ⟨middleConsistent, dstKnown, grown⟩ :=
            spec _ _ _ _ consistent enqueued
          have known : src ∈ middle.nodes := grown.nodes _ (extended.nodes _ srcKnown)
          refine ⟨record_consistent middleConsistent known dstKnown, ?_⟩
          have widen : ∀ p v, middle.Edge p v → (middle.record src request).Edge p v :=
            fun p v taken => (edge_record middle src request p v).mpr (Or.inl taken)
          exact
            { nodes := fun a member => grown.nodes a (extended.nodes a member)
              edges := fun p v taken => widen p v (grown.edges p v (extended.edges p v taken))
              contents := fun a member =>
                (grown.contents a (extended.nodes a member)).trans (extended.contents a member)
              finished := by
                intro a member fresh
                by_cases earlier : a ∈ state.nodes
                · exact (grown.contents a earlier).mpr (extended.finished a earlier fresh)
                · exact grown.finished a member earlier
              reached := by
                intro a member fresh
                by_cases earlier : a ∈ state.nodes
                · exact Relation.ReflTransGen.mono
                    (fun p v taken => widen p v (grown.edges p v taken)) _ _
                    (extended.reached a earlier fresh)
                · -- through the new edge and then from its destination
                  refine Relation.ReflTransGen.head ?_
                    (Relation.ReflTransGen.mono widen _ _ (grown.reached a member earlier))
                  exact (edge_record middle src request src request.dst).mpr
                    (Or.inr ⟨rfl, rfl⟩) }

theorem processCfNode_spec
    {enqueue : Constructs → AbsId → BuildState → Except CfgError BuildState}
    (spec : EnqueueSpec enqueue) {constructs : Constructs} {abs : AbsId}
    {body : Option Terminator} {state after : BuildState} (known : abs ∈ state.nodes)
    (consistent : state.Consistent)
    (run : processCfNode ctx enqueue constructs abs body state = .ok after) :
    after.Consistent ∧ Extends abs state after := by
  cases body with
  | none =>
      obtain rfl := Except.ok.inj run
      exact ⟨consistent, Extends.refl abs state⟩
  | some terminator =>
      simp only [processCfNode] at run
      rw [bind_eq_ok] at run
      obtain ⟨⟨requests, joinPointValues⟩, -, run⟩ := run
      have begin : Extends abs state { state with joinPointValues } :=
        { Extends.refl abs state with }
      have same : ({ state with joinPointValues } : BuildState).Consistent :=
        { consistent with }
      exact foldlM_keeps (fun s => s.Consistent ∧ Extends abs state s)
        (fun request _ s s' kept step => addEdge_spec spec known kept.1 kept.2 step)
        ⟨same, begin⟩ run

theorem getOrEnqueue_spec (fuel : Nat) : EnqueueSpec (getOrEnqueue ctx fuel) := by
  induction fuel with
  | zero => intro constructs abs state after _ run; simp [getOrEnqueue] at run
  | succ fuel ih =>
      intro constructs abs state after consistent run
      unfold getOrEnqueue at run
      cases resolved : ctx.function.get abs with
      | none => simp [resolved] at run
      | some abstraction =>
          simp only [resolved] at run
          split_ifs at run with wrongFunction found
          · obtain rfl := Except.ok.inj run
            exact ⟨consistent, found, Extends.refl abs state⟩
          · rw [bind_eq_ok] at run
            obtain ⟨middle, processed, run⟩ := run
            obtain rfl := pure_eq_ok.mp run
            have started : ({ state with nodes := abs :: state.nodes } : BuildState).Consistent :=
              { nodup := consistent.nodup
                contents_nodes := fun a member =>
                  List.mem_cons_of_mem _ (consistent.contents_nodes a member)
                succ := by
                  intro a e member
                  obtain ⟨src, known, b, dst, dstKnown, listed⟩ := consistent.succ a e member
                  exact ⟨src, List.mem_cons_of_mem _ known, b, dst,
                    List.mem_cons_of_mem _ dstKnown, listed⟩
                pred := consistent.pred }
            obtain ⟨middleConsistent, grown⟩ :=
              processCfNode_spec ih List.mem_cons_self started processed
            have unlisted : abs ∉ middle.contents := fun listed =>
              found (consistent.contents_nodes abs
                ((grown.contents abs List.mem_cons_self).mp listed))
            have known : abs ∈ middle.nodes := grown.nodes abs List.mem_cons_self
            refine ⟨?_, known, ?_⟩
            · exact
                { nodup := by
                    simp [List.nodup_append, middleConsistent.nodup]
                    rintro a member rfl
                    exact unlisted member
                  contents_nodes := by
                    intro a member
                    rcases List.mem_append.mp member with old | new
                    · exact middleConsistent.contents_nodes a old
                    · exact List.mem_singleton.mp new ▸ known
                  succ := middleConsistent.succ
                  pred := middleConsistent.pred }
            · have other : ∀ a ∈ state.nodes, a ≠ abs := fun a member same =>
                found (same ▸ member)
              exact
                { nodes := fun a member => grown.nodes a (List.mem_cons_of_mem _ member)
                  edges := grown.edges
                  contents := by
                    intro a member
                    simp only [List.mem_append, List.mem_singleton, other a member, or_false]
                    exact grown.contents a (List.mem_cons_of_mem _ member)
                  finished := by
                    intro a member fresh
                    by_cases same : a = abs
                    · simp [same]
                    · exact List.mem_append_left _ (grown.finished a member (by simp [same, fresh]))
                  reached := by
                    intro a member fresh
                    by_cases same : a = abs
                    · exact same ▸ Relation.ReflTransGen.refl
                    · exact grown.reached a member (by simp [same, fresh]) }

end Builder

/-! ## Finished graphs -/

theorem exploreCfg_spec {function : Function} {entry : AbsId} {config : CFGBuildConfig}
    {state : BuildState} (explored : exploreCfg function entry config = .ok state) :
    state.Consistent ∧ entry ∈ state.contents ∧ (∀ a ∈ state.nodes, a ∈ state.contents) ∧
      ∀ a ∈ state.contents, Relation.ReflTransGen state.Edge entry a := by
  obtain ⟨consistent, known, grown⟩ :=
    getOrEnqueue_spec _ _ _ _ _ BuildState.empty_consistent explored
  have fresh : ∀ a, a ∉ BuildState.empty.nodes := by simp [BuildState.empty]
  exact ⟨consistent, grown.finished entry known (fresh entry),
    fun a member => grown.finished a member (fresh a),
    fun a member => grown.reached a (consistent.contents_nodes a member) (fresh a)⟩

theorem exploreCfg_noTails {function : Function} {entry : AbsId} {config : CFGBuildConfig}
    (noTails : config.includeStructuredTails = false) {state : BuildState}
    (explored : exploreCfg function entry config = .ok state) : state.NoTails :=
  getOrEnqueue_noTails ⟨function, entry, config⟩ noTails _ _ _ _ _
    (by intro a e member; simp [BuildState.empty] at member) explored

theorem BuildState.toCFG_edge (state : BuildState) (entry p v : AbsId) :
    (state.toCFG entry).Edge (some p) (some v) ↔ state.Edge p v := Iff.rfl

theorem exploreCfg_wellFormed {function : Function} {entry : AbsId} {config : CFGBuildConfig}
    {state : BuildState} (explored : exploreCfg function entry config = .ok state) :
    (state.toCFG entry).WellFormed := by
  obtain ⟨consistent, entryIn, finished, -⟩ := exploreCfg_spec explored
  have memContents : ∀ a, some a ∈ (state.toCFG entry).contents ↔ a ∈ state.contents := by
    simp [BuildState.toCFG]
  exact
    { nodup := consistent.nodup.map (Option.some_injective AbsId)
      entry_mem := (memContents entry).mpr entryIn
      succ_src := by
        intro n e member
        cases n with
        | none => simp [BuildState.toCFG, ofNode] at member
        | some a => exact (consistent.succ a e member).1
      pred_dst := by
        intro n e member
        cases n with
        | none => simp [BuildState.toCFG, ofNode] at member
        | some b => exact (consistent.pred b e member).1
      succ_mem := by
        intro n e member
        cases n with
        | none => simp [BuildState.toCFG, ofNode] at member
        | some a =>
            obtain ⟨-, known, b, dst, dstKnown, -⟩ := consistent.succ a e member
            rw [dst, memContents, memContents]
            exact ⟨finished a known, finished b dstKnown⟩
      listed := by
        intro e
        constructor
        · intro member
          cases srcOf : e.src with
          | none => simp [BuildState.toCFG, ofNode, srcOf] at member
          | some a =>
              rw [srcOf] at member
              obtain ⟨-, -, b, dst, -, listed⟩ := consistent.succ a e member
              rw [dst]
              exact listed
        · intro member
          cases dstOf : e.dst with
          | none => simp [BuildState.toCFG, ofNode, dstOf] at member
          | some b =>
              rw [dstOf] at member
              obtain ⟨-, a, srcOf, listed⟩ := consistent.pred b e member
              rw [srcOf]
              exact listed }

theorem exploreCfg_reachable {function : Function} {entry : AbsId} {config : CFGBuildConfig}
    {state : BuildState} (explored : exploreCfg function entry config = .ok state) :
    ∀ v ∈ (state.toCFG entry).contents,
      Reachable (state.toCFG entry).Edge (state.toCFG entry).entry v := by
  obtain ⟨-, -, -, reached⟩ := exploreCfg_spec explored
  intro v member
  obtain ⟨a, listed, rfl⟩ := List.mem_map.mp member
  rw [reachable_iff_reflTransGen]
  have path := reached a listed
  exact path.lift some fun p v taken => (state.toCFG_edge entry p v).mpr taken

/-- Every graph that passes validation is well formed and has no unreachable node. -/
theorem buildCfg_spec {function : Function} {entry : AbsId} {config : CFGBuildConfig}
    {cfg : CFG} (built : buildCfg function entry config = .ok cfg) :
    cfg.WellFormed ∧ ∀ v ∈ cfg.contents, Reachable cfg.Edge cfg.entry v := by
  unfold buildCfg at built
  rw [bind_eq_ok] at built
  obtain ⟨state, explored, built⟩ := built
  simp only at built
  rw [bind_eq_ok] at built
  obtain ⟨_, -, built⟩ := built
  obtain rfl := pure_eq_ok.mp built
  exact ⟨exploreCfg_wellFormed explored, exploreCfg_reachable explored⟩

theorem buildCfg_noTails {function : Function} {entry : AbsId} {config : CFGBuildConfig}
    (noTails : config.includeStructuredTails = false) {cfg : CFG}
    (built : buildCfg function entry config = .ok cfg) :
    ∀ n, ∀ e ∈ cfg.succEdges n, e.type ≠ .structuredTailEdge := by
  unfold buildCfg at built
  rw [bind_eq_ok] at built
  obtain ⟨state, explored, built⟩ := built
  simp only at built
  rw [bind_eq_ok] at built
  obtain ⟨_, -, built⟩ := built
  obtain rfl := pure_eq_ok.mp built
  intro n e member
  cases n with
  | none => simp [BuildState.toCFG, ofNode] at member
  | some a => exact exploreCfg_noTails noTails explored a e member

/-- The builder makes no virtual node. -/
theorem buildCfg_real {function : Function} {entry : AbsId} {config : CFGBuildConfig}
    {cfg : CFG} (built : buildCfg function entry config = .ok cfg) : none ∉ cfg.contents := by
  unfold buildCfg at built
  rw [bind_eq_ok] at built
  obtain ⟨state, explored, built⟩ := built
  simp only at built
  rw [bind_eq_ok] at built
  obtain ⟨_, -, built⟩ := built
  obtain rfl := pure_eq_ok.mp built
  simp [BuildState.toCFG]

end Shady
