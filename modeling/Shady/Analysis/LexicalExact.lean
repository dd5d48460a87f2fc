import Shady.Analysis.LexicalCfg
import Shady.Analysis.DomtreeTotal

/-!
# Exactness of control flow graphs

Validation accepts what the builder makes of a nested function, since each block is used
once. The edges are the lexical ones exactly when no merge is found on a path that has left
the construct of its kind that it entered last.
-/

set_option autoImplicit false

namespace Shady
open Fallible Dominance

/-! ## Edges are recorded at both ends -/

/-- Both ends of an edge list it the same number of times. -/
def BuildState.Balanced (state : BuildState) : Prop :=
  ∀ (e : CFEdge) a b, e.src = some a → e.dst = some b →
    (state.succEdges a).count e = (state.predEdges b).count e

theorem BuildState.Balanced.record {state : BuildState} (balanced : state.Balanced) (src : AbsId)
    (r : EdgeRequest) : (state.record src r).Balanced := by
  intro e a b ofSrc ofDst
  have before := balanced e a b ofSrc ofDst
  simp only [BuildState.record, appendAt]
  by_cases same : e = ⟨r.type, some src, some r.dst, r.terminator.asJump, some r.terminator⟩
  · have atSrc : a = src := by
      rw [same] at ofSrc
      exact (Option.some.inj ofSrc).symm
    have atDst : b = r.dst := by
      rw [same] at ofDst
      exact (Option.some.inj ofDst).symm
    rw [if_pos atSrc, if_pos atDst, List.count_append, List.count_append, before]
  · have other : [(⟨r.type, some src, some r.dst, r.terminator.asJump, some r.terminator⟩ : CFEdge)].count e = 0 :=
      List.count_eq_zero.mpr fun member => same (List.mem_singleton.mp member)
    split <;> split <;> simp only [List.count_append, other, before, Nat.add_zero]

theorem getOrEnqueue_balanced {ctx : CfgBuildContext} (fuel : Nat) :
    ∀ {constructs : Constructs} {abs : AbsId} {state after : BuildState}, state.Balanced →
      getOrEnqueue ctx fuel constructs abs state = .ok after → after.Balanced := by
  induction fuel with
  | zero => exact fun _ run => nomatch run
  | succ fuel ih =>
      intro constructs abs state after balanced run
      unfold getOrEnqueue at run
      split at run
      · cases run
      · split_ifs at run with wrong found
        · exact Except.ok.inj run ▸ balanced
        · obtain ⟨middle, processed, run⟩ := bind_eq_ok.mp run
          obtain rfl := pure_eq_ok.mp run
          suffices kept : middle.Balanced from kept
          unfold processCfNode at processed
          split at processed
          · exact Except.ok.inj processed ▸ balanced
          · obtain ⟨⟨requests, joinPointValues⟩, -, looped⟩ := bind_eq_ok.mp processed
            have start : BuildState.Balanced { state with nodes := abs :: state.nodes, joinPointValues } :=
              balanced
            refine foldlM_keeps BuildState.Balanced ?_ start looped
            intro request _ before next kept step
            unfold addEdge at step
            split at step
            · cases step
            · split_ifs at step
              obtain ⟨inside, -, step⟩ := bind_eq_ok.mp step
              split_ifs at step
              · obtain ⟨grown, enqueued, step⟩ := bind_eq_ok.mp step
                exact pure_eq_ok.mp step ▸ (ih kept enqueued).record _ _
              · exact pure_eq_ok.mp step ▸ kept

theorem countP_le_one {α : Type} [DecidableEq α] {p : α → Bool} {items : List α}
    (alike : ∀ x ∈ items, ∀ y ∈ items, p x = true → p y = true → x = y)
    (once : ∀ x ∈ items, p x = true → items.count x ≤ 1) : items.countP p ≤ 1 := by
  rw [List.countP_eq_length_filter]
  cases kept : items.filter p with
  | nil => exact Nat.zero_le 1
  | cons x rest =>
      have member : ∀ y ∈ x :: rest, y ∈ items ∧ p y = true := by
        intro y inFilter
        rw [← kept] at inFilter
        exact List.mem_filter.mp inFilter
      have first := member x List.mem_cons_self
      have same : items.filter p = List.replicate (items.filter p).length x := by
        rw [List.eq_replicate_iff]
        refine ⟨rfl, fun y inFilter => ?_⟩
        rw [kept] at inFilter
        exact alike y (member y inFilter).1 x first.1 (member y inFilter).2 first.2
      have counted : (items.filter p).count x = (items.filter p).length := by
        rw [same, List.count_replicate_self, List.length_replicate]
      rw [← kept, ← counted, List.count_filter first.2]
      exact once x first.1 first.2

namespace Function
variable {f : Function} {scope : AbsId → List Frame}

/-! ## The edges of a block -/

section Edges
variable {frames : List Frame} {a b : AbsId} {e : CFEdge} {t : Terminator}

theorem edgesIn_cases (ends : f.terminator a = some t) (member : e ∈ f.edgesIn frames a) :
    (∃ j ∈ t.jumps, e = ⟨.jumpEdge, some a, some j.target, some j, some (.jump j)⟩) ∨
      (∃ tail, t.tail? = some tail ∧ e = ⟨.structuredTailEdge, some a, some tail, none, some t⟩) ∨
      (∃ body ∈ t.bodies, e = ⟨.structuredEnterBodyEdge, some a, some body, none, some t⟩) ∨
      ∃ leave ∈ t.leaves frames, e = ⟨leave.1, some a, some leave.2, none, some t⟩ := by
  rw [edgesIn_eq _ ends, List.mem_append, List.mem_append, List.mem_append] at member
  obtain ((inJumps | inTail) | inBodies) | inLeaves := member
  · obtain ⟨j, isJump, same⟩ := List.mem_map.mp inJumps
    exact .inl ⟨j, isJump, same.symm⟩
  · obtain ⟨tail, isTail, same⟩ := List.mem_map.mp inTail
    exact .inr (.inl ⟨tail, Option.mem_toList.mp isTail, same.symm⟩)
  · obtain ⟨body, isBody, same⟩ := List.mem_map.mp inBodies
    exact .inr (.inr (.inl ⟨body, isBody, same.symm⟩))
  · obtain ⟨leave, isLeave, same⟩ := List.mem_map.mp inLeaves
    exact .inr (.inr (.inr ⟨leave, isLeave, same.symm⟩))

theorem terminator_of_mem (member : e ∈ f.edgesIn frames a) : ∃ t, f.terminator a = some t := by
  cases ends : f.terminator a with
  | none =>
      rw [edgesIn, ends] at member
      cases member
  | some t => exact ⟨t, rfl⟩

/-- A way out is an exit or the way back to the body of a loop. -/
theorem leaves_type {leave : CFEdgeType × AbsId} (member : leave ∈ t.leaves frames) :
    leave.1 = .structuredLeaveBodyEdge ∨ leave.1 = .structuredLoopContinue := by
  cases t with
  | ifInstr ifTrue ifFalse tail =>
      cases ifFalse with
      | none => exact .inl (List.mem_singleton.mp member ▸ rfl)
      | some ifFalse => cases member
  | mergeContinue =>
      obtain ⟨body, -, same⟩ := Option.map_eq_some_iff.mp (Option.mem_toList.mp member)
      exact .inr (same ▸ rfl)
  | join token =>
      obtain ⟨frame, -, same⟩ := Option.map_eq_some_iff.mp (Option.mem_toList.mp member)
      exact .inl (same ▸ rfl)
  | mergeSelection =>
      obtain ⟨frame, -, same⟩ := Option.map_eq_some_iff.mp (Option.mem_toList.mp member)
      exact .inl (same ▸ rfl)
  | mergeBreak =>
      obtain ⟨frame, -, same⟩ := Option.map_eq_some_iff.mp (Option.mem_toList.mp member)
      exact .inl (same ▸ rfl)
  | _ => cases member

/-- An exit leads to a tail: of the block's own construct, or of one around. -/
theorem leaves_tail {leave : CFEdgeType × AbsId} (member : leave ∈ t.leaves frames)
    (exits : leave.1 = .structuredLeaveBodyEdge) :
    t.tail? = some leave.2 ∨ ∃ frame ∈ frames, frame.tail = leave.2 := by
  have around : ∀ {kind : Frame → Bool} {type : CFEdgeType},
      leave ∈ ((frames.find? kind).map (type, ·.tail)).toList → ∃ frame ∈ frames, frame.tail = leave.2 := by
    intro kind type inList
    obtain ⟨frame, found, same⟩ := Option.map_eq_some_iff.mp (Option.mem_toList.mp inList)
    exact ⟨frame, List.mem_of_find?_eq_some found, same ▸ rfl⟩
  cases t with
  | ifInstr ifTrue ifFalse tail =>
      cases ifFalse with
      | none => exact .inl (List.mem_singleton.mp member ▸ rfl)
      | some ifFalse => cases member
  | mergeContinue =>
      obtain ⟨body, -, same⟩ := Option.map_eq_some_iff.mp (Option.mem_toList.mp member)
      rw [← same] at exits
      cases exits
  | join token => exact .inr (around member)
  | mergeSelection => exact .inr (around member)
  | mergeBreak => exact .inr (around member)
  | _ => cases member

/-- The types of the edges that use a block as a body or a tail. -/
def structuralTypes : List CFEdgeType := [.structuredEnterBodyEdge, .structuredTailEdge]

theorem structural_cases (member : e ∈ f.edgesIn frames a) (structural : e.type ∈ structuralTypes)
    (leads : e.dst = some b) : ∃ t, f.terminator a = some t ∧
      ((e = ⟨.structuredTailEdge, some a, some b, none, some t⟩ ∧ t.tail? = some b) ∨
        (e = ⟨.structuredEnterBodyEdge, some a, some b, none, some t⟩ ∧ b ∈ t.bodies)) := by
  obtain ⟨t, ends⟩ := terminator_of_mem member
  refine ⟨t, ends, ?_⟩
  obtain ⟨j, isJump, rfl⟩ | ⟨tail, isTail, rfl⟩ | ⟨body, isBody, rfl⟩ | ⟨leave, isLeave, rfl⟩ :=
    edgesIn_cases ends member
  · simp [structuralTypes] at structural
  · cases leads
    exact .inl ⟨rfl, isTail⟩
  · cases leads
    exact .inr ⟨rfl, isBody⟩
  · cases leaves_type isLeave with
    | inl exits => simp [structuralTypes, exits] at structural
    | inr continues => simp [structuralTypes, continues] at structural

theorem structural_target (member : e ∈ f.edgesIn frames a) (structural : e.type ∈ structuralTypes)
    (leads : e.dst = some b) : ∃ t, f.terminator a = some t ∧ b ∈ t.structuralTargets := by
  obtain ⟨t, ends, useOf⟩ := structural_cases member structural leads
  refine ⟨t, ends, List.mem_append.mpr ?_⟩
  cases useOf with
  | inl asTail => exact .inr (Option.mem_toList.mpr asTail.2)
  | inr asBody => exact .inl asBody.2

/-- A block uses another one as a body or a tail by one edge. -/
theorem structural_count (nested : f.Nested scope) (member : e ∈ f.edgesIn frames a)
    (structural : e.type ∈ structuralTypes) (leads : e.dst = some b) : (f.edgesIn frames a).count e ≤ 1 := by
  obtain ⟨t, ends, useOf⟩ := structural_cases member structural leads
  have nodup := List.nodup_append.mp (nested.once a t ends)
  have inTails : (t.tail?.toList.map (⟨.structuredTailEdge, some a, some ·, none, some t⟩ : AbsId → CFEdge)).Nodup :=
    nodup.2.1.map fun _ _ same => by simpa using same
  have inBodies : (t.bodies.map (⟨.structuredEnterBodyEdge, some a, some ·, none, some t⟩ : AbsId → CFEdge)).Nodup :=
    nodup.1.map fun _ _ same => by simpa using same
  have notJump : e ∉ t.jumps.map
      (fun j => (⟨.jumpEdge, some a, some j.target, some j, some (.jump j)⟩ : CFEdge)) := by
    intro isJump
    obtain ⟨j, -, same⟩ := List.mem_map.mp isJump
    simp [structuralTypes, ← same] at structural
  have notLeave : e ∉ (t.leaves frames).map
      (fun leave => (⟨leave.1, some a, some leave.2, none, some t⟩ : CFEdge)) := by
    intro isLeave
    obtain ⟨leave, inLeaves, same⟩ := List.mem_map.mp isLeave
    cases leaves_type inLeaves with
    | inl exits => simp [structuralTypes, ← same, exits] at structural
    | inr continues => simp [structuralTypes, ← same, continues] at structural
  rw [edgesIn_eq _ ends, List.count_append, List.count_append, List.count_append,
    List.count_eq_zero.mpr notJump, List.count_eq_zero.mpr notLeave]
  cases useOf with
  | inl asTail =>
      have notBody : e ∉ t.bodies.map
          (⟨.structuredEnterBodyEdge, some a, some ·, none, some t⟩ : AbsId → CFEdge) := by
        intro isBody
        obtain ⟨body, -, same⟩ := List.mem_map.mp isBody
        rw [asTail.1] at same
        cases same
      rw [List.count_eq_zero.mpr notBody]
      have once := List.nodup_iff_count_le_one.mp inTails e
      omega
  | inr asBody =>
      have notTail : e ∉ t.tail?.toList.map
          (⟨.structuredTailEdge, some a, some ·, none, some t⟩ : AbsId → CFEdge) := by
        intro isTail
        obtain ⟨tail, -, same⟩ := List.mem_map.mp isTail
        rw [asBody.1] at same
        cases same
      rw [List.count_eq_zero.mpr notTail]
      have once := List.nodup_iff_count_le_one.mp inBodies e
      omega

end Edges


/-! ## The builder on the whole function -/

/-- What the builder has found of a nested function. -/
structure Found (f : Function) (scope : AbsId → List Frame) (state : BuildState) : Prop where
  nodes : state.nodes = (f.foundFrom scope).map Prod.fst
  added : ∀ found ∈ f.foundFrom scope,
    (state.succEdges found.1).Perm (f.edgesIn (f.entered found.2 found.1) found.1)
  sound : ∀ found ∈ f.foundFrom scope, f.Sound scope found.2 found.1
  paths : ∀ found ∈ f.foundFrom scope, ∀ c ∈ found.2, c ∈ state.nodes
  balanced : state.Balanced

theorem sound_self (nested : f.Nested scope) : f.Sound scope [] f.self := by
  constructor
  · intro frame member
    rw [nested.start] at member
    cases member
  · intro token tail rest isSuffix
    rw [nested.start] at isSuffix
    cases List.suffix_nil.mp isSuffix

theorem exploreCfg_nested (nested : f.Nested scope) :
    ∃ state, exploreCfg f f.self defaultForwardCfgBuild = .ok state ∧ Found f scope state := by
  have bare : ∀ b, b ∉ BuildState.empty.nodes → BuildState.empty.succEdges b = [] := fun _ _ => rfl
  have tokens : f.TokensOf BuildState.empty.joinPointValues := nofun
  have known : ∃ abs, f.get f.self = some abs ∧ (abs.isFunction = true → f.self = f.self) :=
    nested.self.imp fun abs got => ⟨got, fun _ => rfl⟩
  have findable : f.Findable scope [] f.self BuildState.empty := ⟨known, sound_self nested, nofun, nofun⟩
  have enough : f.remaining BuildState.empty < f.abstractions.length + 1 :=
    Nat.lt_succ_of_le List.countP_le_length
  obtain ⟨state, more, ran, searched, grown, -, -⟩ := getOrEnqueue_inStep nested _ [] f.self
    BuildState.empty [] rfl bare tokens known (fun _ => findable) enough
  have all : f.foundFrom scope = more := by rw [foundFrom, searched, List.append_nil]
  have balanced : BuildState.empty.Balanced := fun _ _ _ _ _ => rfl
  refine ⟨state, ran, ?_, all ▸ grown.added, all ▸ grown.sound, all ▸ grown.paths,
    getOrEnqueue_balanced _ balanced ran⟩
  rw [all, grown.nodes]
  exact List.append_nil _

/-! ## Validation -/

section Validate
variable {state : BuildState} {b : AbsId} {e : CFEdge}

theorem Found.of_node (found : Found f scope state) {a : AbsId} (isNode : a ∈ state.nodes) :
    ∃ path, (a, path) ∈ f.foundFrom scope := by
  rw [found.nodes] at isNode
  obtain ⟨⟨a', path⟩, isFound, same⟩ := List.mem_map.mp isNode
  exact ⟨path, same ▸ isFound⟩

theorem Found.of_succ (found : Found f scope state) {a : AbsId} (consistent : state.Consistent)
    (member : e ∈ state.succEdges a) :
    ∃ path, (a, path) ∈ f.foundFrom scope ∧ e ∈ f.edgesIn (f.entered path a) a := by
  obtain ⟨path, isFound⟩ := found.of_node (consistent.succ a e member).2.1
  exact ⟨path, isFound, (found.added _ isFound).mem_iff.mp member⟩

theorem Found.of_pred (found : Found f scope state) (consistent : state.Consistent)
    (member : e ∈ state.predEdges b) : e.dst = some b ∧ ∃ a path, e.src = some a ∧
      (a, path) ∈ f.foundFrom scope ∧ e ∈ f.edgesIn (f.entered path a) a := by
  obtain ⟨leads, a, from', listed⟩ := consistent.pred b e member
  obtain ⟨path, isFound, inEdges⟩ := found.of_succ consistent listed
  exact ⟨leads, a, path, from', isFound, inEdges⟩

/-- A block is used once as a body or a tail. -/
theorem Found.used_once (found : Found f scope state) (consistent : state.Consistent)
    (nested : f.Nested scope) (b : AbsId) : countEdges (state.predEdges b) structuralTypes ≤ 1 := by
  refine countP_le_one ?_ ?_
  · intro e member e' member' structural structural'
    rw [decide_eq_true_iff] at structural structural'
    obtain ⟨leads, a, path, from', isFound, inEdges⟩ := found.of_pred consistent member
    obtain ⟨leads', a', path', from'', isFound', inEdges'⟩ := found.of_pred consistent member'
    obtain ⟨t, ends, uses⟩ := structural_cases inEdges structural leads
    obtain ⟨t', ends', uses'⟩ := structural_cases inEdges' structural' leads'
    have target : ∀ {t a e}, (e = (⟨.structuredTailEdge, some a, some b, none, some t⟩ : CFEdge) ∧ t.tail? = some b) ∨
        (e = (⟨.structuredEnterBodyEdge, some a, some b, none, some t⟩ : CFEdge) ∧ b ∈ t.bodies) →
        b ∈ t.structuralTargets := by
      intro t a e uses
      refine List.mem_append.mpr ?_
      cases uses with
      | inl asTail => exact .inr (Option.mem_toList.mpr asTail.2)
      | inr asBody => exact .inl asBody.2
    have same := nested.apart a a' t t' b ends ends' (target uses) (target uses')
    subst same
    rw [ends] at ends'
    cases ends'
    have notBoth : t.tail? = some b → b ∉ t.bodies := by
      intro isTail isBody
      exact (List.nodup_append.mp (nested.once a t ends)).2.2 b isBody b (Option.mem_toList.mpr isTail) rfl
    cases uses with
    | inl asTail =>
        cases uses' with
        | inl asTail' => exact asTail.1.trans asTail'.1.symm
        | inr asBody => exact absurd asBody.2 (notBoth asTail.2)
    | inr asBody =>
        cases uses' with
        | inl asTail => exact absurd asBody.2 (notBoth asTail.2)
        | inr asBody' => exact asBody.1.trans asBody'.1.symm
  · intro e member structural
    rw [decide_eq_true_iff] at structural
    obtain ⟨leads, a, path, from', isFound, inEdges⟩ := found.of_pred consistent member
    rw [← found.balanced e a b from' leads, (found.added _ isFound).count_eq]
    exact structural_count nested inEdges structural leads

theorem countEdges_zero {edges : List CFEdge} {type : CFEdgeType}
    (other : ∀ e ∈ edges, e.type ≠ type) : countEdges edges [type] = 0 := by
  refine List.countP_eq_zero.mpr fun e member isType => ?_
  exact other e member (List.mem_singleton.mp (decide_eq_true_iff.mp isType))

theorem Found.not_jumped (found : Found f scope state) (consistent : state.Consistent)
    (nested : f.Nested scope) {e' : CFEdge} (used : e' ∈ state.predEdges b)
    (structural : e'.type ∈ structuralTypes) : countEdges (state.predEdges b) [.jumpEdge] = 0 := by
  obtain ⟨leads', a', path', -, -, inEdges'⟩ := found.of_pred consistent used
  obtain ⟨t', ends', target⟩ := structural_target inEdges' structural leads'
  refine countEdges_zero fun e member isJump => ?_
  obtain ⟨leads, a, path, -, -, inEdges⟩ := found.of_pred consistent member
  obtain ⟨t, ends⟩ := terminator_of_mem inEdges
  obtain ⟨j, inJumps, rfl⟩ | ⟨tail, -, rfl⟩ | ⟨body, -, rfl⟩ | ⟨leave, isLeave, rfl⟩ := edgesIn_cases ends inEdges
  · cases leads
    exact nested.unjumped a a' t t' ends ends' j inJumps target
  · cases isJump
  · cases isJump
  · cases leaves_type isLeave with
    | inl exits => exact absurd (exits.symm.trans isJump) (by decide)
    | inr continues => exact absurd (continues.symm.trans isJump) (by decide)

/-- The tail of a construct that was found has a tail edge. -/
theorem Found.tail_edge (found : Found f scope state) (consistent : state.Consistent) {c : AbsId}
    {t : Terminator} (isNode : c ∈ state.nodes) (ends : f.terminator c = some t) (isTail : t.tail? = some b) :
    (⟨.structuredTailEdge, some c, some b, none, some t⟩ : CFEdge) ∈ state.predEdges b := by
  obtain ⟨path, isFound⟩ := found.of_node isNode
  have inEdges : (⟨.structuredTailEdge, some c, some b, none, some t⟩ : CFEdge) ∈
      f.edgesIn (f.entered path c) c := by
    rw [edgesIn_eq _ ends, isTail]
    simp
  obtain ⟨-, -, b', leads, -, listed⟩ := consistent.succ c _ ((found.added _ isFound).mem_iff.mpr inEdges)
  cases leads
  exact listed

/-- Where an exit leads, a tail edge leads too. -/
theorem Found.exit_to_tail (found : Found f scope state) (consistent : state.Consistent)
    (member : e ∈ state.predEdges b) (exits : e.type = .structuredLeaveBodyEdge) :
    ∃ e' ∈ state.predEdges b, e'.type = .structuredTailEdge := by
  obtain ⟨leads, a, path, from', isFound, inEdges⟩ := found.of_pred consistent member
  obtain ⟨t, ends⟩ := terminator_of_mem inEdges
  have isNode : a ∈ state.nodes := by
    rw [found.nodes]
    exact List.mem_map_of_mem isFound
  obtain ⟨j, -, rfl⟩ | ⟨tail, -, rfl⟩ | ⟨body, -, rfl⟩ | ⟨leave, isLeave, rfl⟩ := edgesIn_cases ends inEdges
  · cases exits
  · cases exits
  · cases exits
  · cases leads
    cases leaves_tail isLeave exits with
    | inl own => exact ⟨_, found.tail_edge consistent isNode ends own, rfl⟩
    | inr around =>
        obtain ⟨frame, inFrames, same⟩ := around
        obtain ⟨c, onPath, t', ends', around'⟩ := mem_entered path a inFrames
        refine ⟨_, found.tail_edge consistent (found.paths _ isFound c onPath) ends' ?_, rfl⟩
        rw [tail_of_frame around', same]

theorem Found.validateNode_ok (found : Found f scope state) (consistent : state.Consistent)
    (nested : f.Nested scope) (b : AbsId) : validateNode (state.toCFG f.self) (some b) = .ok () := by
  have once : countEdges ((state.toCFG f.self).predEdges (some b)) structuralTypes ≤ 1 :=
    found.used_once consistent nested b
  unfold validateNode
  dsimp only
  split_ifs with used twice jumped left
  · exact absurd twice (Nat.not_lt.mpr once)
  · obtain ⟨e, member, structural⟩ := List.countP_pos_iff.mp used.2
    rw [decide_eq_true_iff] at structural
    have none' := found.not_jumped consistent nested member structural
    exact absurd jumped (by rw [show (state.toCFG f.self).predEdges (some b) = state.predEdges b from rfl, none']; decide)
  · obtain ⟨notTail, exits⟩ := left
    obtain ⟨e, member, isExit⟩ := List.countP_pos_iff.mp exits
    rw [decide_eq_true_iff, List.mem_singleton] at isExit
    obtain ⟨e', member', isTail⟩ := found.exit_to_tail consistent member isExit
    refine absurd ?_ notTail
    refine Nat.pos_iff_ne_zero.mp (List.countP_pos_iff.mpr ⟨e', member', ?_⟩)
    rw [decide_eq_true_iff, List.mem_singleton]
    exact isTail
  · rfl
  · rfl

end Validate

theorem forM_eq_ok {ε α : Type} {check : α → Except ε Unit} {items : List α}
    (all : ∀ item ∈ items, check item = .ok ()) : items.forM check = .ok () := by
  induction items with
  | nil => rfl
  | cons item items ih =>
      obtain ⟨first, rest⟩ := List.forall_mem_cons.mp all
      change (check item >>= fun _ => items.forM check) = .ok ()
      rw [first]
      exact ih rest

theorem buildCfg_nested (nested : f.Nested scope) :
    ∃ state, buildCfg f f.self defaultForwardCfgBuild = .ok (state.toCFG f.self) ∧
      Found f scope state ∧ ∀ a, some a ∈ (state.toCFG f.self).contents ↔ a ∈ state.nodes := by
  obtain ⟨state, explored, found⟩ := exploreCfg_nested nested
  obtain ⟨consistent, -, finished, -⟩ := exploreCfg_spec explored
  have valid : validateCfg (state.toCFG f.self) = .ok () := by
    refine forM_eq_ok fun n member => ?_
    obtain ⟨b, -, rfl⟩ := List.mem_map.mp member
    exact found.validateNode_ok consistent nested b
  refine ⟨state, ?_, found, fun a => ?_⟩
  · rw [buildCfg, explored]
    change (validateCfg (state.toCFG f.self) >>= fun _ => pure (state.toCFG f.self)) = _
    rw [valid]
    rfl
  · have listed : some a ∈ (state.toCFG f.self).contents ↔ a ∈ state.contents :=
      List.mem_map_of_injective (Option.some_injective AbsId)
    exact listed.trans ⟨consistent.contents_nodes a, finished a⟩

/-! ## Ways out -/

section Ways
variable {path : List AbsId} {a : AbsId} {t : Terminator} {frame frame' : Frame}

/-- Constructs that share a body or a tail are the same. -/
theorem frame_unique (nested : f.Nested scope) {c c' : AbsId} {t t' : Terminator}
    (ends : f.terminator c = some t) (ends' : f.terminator c' = some t') (around : f.frame t = some frame)
    (around' : f.frame t' = some frame') {b : AbsId} (target : b ∈ t.structuralTargets)
    (target' : b ∈ t'.structuralTargets) : frame = frame' := by
  have same := nested.apart c c' t t' b ends ends' target target'
  rw [same, ends'] at ends
  cases ends
  rw [around] at around'
  exact Option.some.inj around'

theorem tail_mem_of_frame (around : f.frame t = some frame) : frame.tail ∈ t.structuralTargets :=
  List.mem_append_right _ (Option.mem_toList.mpr (tail_of_frame around))

theorem entered_tail_inj (nested : f.Nested scope) (member : frame ∈ f.entered path a)
    (member' : frame' ∈ f.entered path a) (sameTail : frame.tail = frame'.tail) : frame = frame' := by
  obtain ⟨c, -, t, ends, around⟩ := mem_entered path a member
  obtain ⟨c', -, t', ends', around'⟩ := mem_entered path a member'
  have target := tail_mem_of_frame around
  rw [sameTail] at target
  exact frame_unique nested ends ends' around around' target (tail_mem_of_frame around')

theorem entered_body_inj (nested : f.Nested scope) (member : frame ∈ f.entered path a)
    (member' : frame' ∈ f.entered path a) {body : AbsId} (isBody : frame.body? = some body)
    (isBody' : frame'.body? = some body) : frame = frame' := by
  obtain ⟨c, -, t, ends, around⟩ := mem_entered path a member
  obtain ⟨c', -, t', ends', around'⟩ := mem_entered path a member'
  exact frame_unique nested ends ends' around around' (List.mem_append_left _ (body_of_frame around isBody))
    (List.mem_append_left _ (body_of_frame around' isBody'))

/-- The control that binds a token is the same, whichever constructs it is looked for in. -/
theorem join_target (nested : f.Nested scope) (sound : f.Sound scope path a) {token : ValueId}
    (ends : f.terminator a = some (.join token)) :
    (f.entered path a).find? (Frame.binds token) = (scope a).find? (Frame.binds token) := by
  have bound : ∀ frame ∈ f.entered path a, Frame.binds token frame = true →
      ∃ c inside tail, f.terminator c = some (.control inside tail) ∧ f.token inside = some token ∧
        frame = .control token tail := by
    intro frame member binds
    obtain ⟨c, -, t, ends, around⟩ := mem_entered path a member
    cases frame with
    | selection _ => cases binds
    | loop _ _ => cases binds
    | control own tail =>
        rw [Frame.binds, decide_eq_true_iff] at binds
        cases t with
        | control inside tail' =>
            rw [Function.frame, Option.map_eq_some_iff] at around
            obtain ⟨own', isOwn, equal⟩ := around
            cases equal
            exact ⟨c, inside, tail, ends, binds ▸ isOwn, by rw [binds]⟩
        | _ => cases around
  cases nested.joins a token ends with
  | inl own =>
      obtain ⟨tail, member⟩ := own
      obtain ⟨entered, lexical, found, found', member, member', binds, binds'⟩ :=
        exists_entered sound (Frame.binds token) member (decide_eq_true rfl)
      obtain ⟨c, inside, tail, ends, own, rfl⟩ := bound entered member binds
      obtain ⟨c', inside', tail', ends', own', rfl⟩ := bound lexical member' binds'
      have same := nested.tokens c c' inside inside' tail tail' token ends ends' own own'
      rw [same, ends'] at ends
      cases ends
      rw [found, found']
  | inr foreign =>
      have unbound : ∀ frame ∈ f.entered path a, ¬ Frame.binds token frame = true := by
        intro frame member binds
        obtain ⟨c, inside, tail, ends, own, -⟩ := bound frame member binds
        exact foreign c inside tail ends own
      rw [List.find?_eq_none.mpr unbound,
        List.find?_eq_none.mpr fun frame member => unbound frame (sound.entered frame member)]

/-- The ways out are those of the constructs around exactly when merges find the same
    constructs of their kind. -/
theorem leaves_eq_iff (nested : f.Nested scope) (sound : f.Sound scope path a)
    (ends : f.terminator a = some t) : t.leaves (f.entered path a) = t.leaves (scope a) ↔
      ∀ kind ∈ t.merges, (f.entered path a).find? kind = (scope a).find? kind := by
  have found : ∀ {kind : Frame → Bool}, t.merges = some kind → ∃ entered lexical,
      (f.entered path a).find? kind = some entered ∧ (scope a).find? kind = some lexical ∧
      entered ∈ f.entered path a ∧ lexical ∈ f.entered path a ∧ kind entered = true ∧ kind lexical = true := by
    intro kind isMerge
    obtain ⟨frame, member, isKind⟩ := nested.merges a t kind ends isMerge
    exact exists_entered sound _ member isKind
  have toTail : ∀ {kind : Frame → Bool}, t.merges = some kind →
      (((f.entered path a).find? kind).map fun frame => (CFEdgeType.structuredLeaveBodyEdge, frame.tail)).toList
        = (((scope a).find? kind).map fun frame => (CFEdgeType.structuredLeaveBodyEdge, frame.tail)).toList →
      (f.entered path a).find? kind = (scope a).find? kind := by
    intro kind isMerge same
    obtain ⟨entered, lexical, found, found', member, member', -, -⟩ := found isMerge
    rw [found, found'] at same ⊢
    have tails : entered.tail = lexical.tail := by simpa using same
    rw [entered_tail_inj nested member member' tails]
  cases t with
  | join token =>
      refine iff_of_true ?_ (fun kind isMerge => by cases isMerge)
      rw [Terminator.leaves, Terminator.leaves, join_target nested sound ends]
  | mergeSelection =>
      refine ⟨fun same kind isMerge => ?_, fun same => ?_⟩
      · cases isMerge
        exact toTail rfl same
      · rw [Terminator.leaves, Terminator.leaves, same _ rfl]
  | mergeBreak =>
      refine ⟨fun same kind isMerge => ?_, fun same => ?_⟩
      · cases isMerge
        exact toTail rfl same
      · rw [Terminator.leaves, Terminator.leaves, same _ rfl]
  | mergeContinue =>
      refine ⟨fun same kind isMerge => ?_, fun same => ?_⟩
      · cases isMerge
        obtain ⟨entered, lexical, found, found', member, member', isLoop, isLoop'⟩ := found rfl
        cases entered with
        | selection _ => cases isLoop
        | control _ _ => cases isLoop
        | loop body tail =>
            cases lexical with
            | selection _ => cases isLoop'
            | control _ _ => cases isLoop'
            | loop body' tail' =>
                rw [Terminator.leaves, Terminator.leaves, found, found'] at same
                have bodies : body = body' := by simpa [Frame.body?] using same
                rw [found, found', entered_body_inj nested member member' rfl (congrArg Option.some bodies.symm)]
      · rw [Terminator.leaves, Terminator.leaves, same _ rfl]
  | ifInstr ifTrue ifFalse tail =>
      cases ifFalse <;> exact iff_of_true rfl (fun kind isMerge => by cases isMerge)
  | _ => exact iff_of_true rfl (fun kind isMerge => by cases isMerge)

theorem leaves_length (frames : List Frame) (t : Terminator) : (t.leaves frames).length ≤ 1 := by
  have atMost : ∀ {α : Type} (x : Option α), x.toList.length ≤ 1 := by
    intro α x
    cases x <;> simp
  cases t with
  | ifInstr ifTrue ifFalse tail => cases ifFalse <;> simp [Terminator.leaves]
  | join token => exact atMost _
  | mergeSelection => exact atMost _
  | mergeContinue => exact atMost _
  | mergeBreak => exact atMost _
  | _ => exact Nat.zero_le 1

/-- Only the ways out depend on the constructs around a block. -/
theorem edgesIn_perm_iff (ends : f.terminator a = some t) (frames frames' : List Frame) :
    (f.edgesIn frames a).Perm (f.edgesIn frames' a) ↔ t.leaves frames = t.leaves frames' := by
  rw [edgesIn_eq _ ends, edgesIn_eq _ ends, List.perm_append_left_iff]
  constructor
  · intro same
    have lengths := same.length_eq
    rw [List.length_map, List.length_map] at lengths
    have short := leaves_length frames t
    cases first : t.leaves frames with
    | nil =>
        rw [first] at lengths
        exact (List.eq_nil_of_length_eq_zero lengths.symm).symm
    | cons leave rest =>
        rw [first] at lengths short same
        obtain rfl : rest = [] := List.eq_nil_of_length_eq_zero (by simpa using short)
        obtain ⟨leave', second⟩ := List.length_eq_one_iff.mp lengths.symm
        rw [second] at same ⊢
        have equal := List.singleton_perm_singleton.mp same
        simp only [CFEdge.mk.injEq, Option.some.injEq, and_true, true_and] at equal
        rw [Prod.ext equal.1 equal.2]
  · intro same
    rw [same]

end Ways

end Function

/-! ## Exactness -/

/-- A graph with the edges that lexical nesting gives: from the entry on, out of each block
    those of its terminator, and listed as often at the other end. -/
structure CFG.Lexical (f : Function) (scope : AbsId → List Frame) (cfg : CFG) : Prop where
  entry : cfg.entry = some f.self
  wellFormed : cfg.WellFormed
  reachable : ∀ v ∈ cfg.contents, Reachable cfg.Edge cfg.entry v
  real : none ∉ cfg.contents
  edges : ∀ a, some a ∈ cfg.contents → (cfg.succEdges (some a)).Perm (f.edgesIn (scope a) a)
  balanced : ∀ e, (cfg.predEdges e.dst).count e = (cfg.succEdges e.src).count e

theorem BuildState.toCFG_balanced {state : BuildState} {entry : AbsId} (balanced : state.Balanced)
    (wellFormed : (state.toCFG entry).WellFormed) (real : none ∉ (state.toCFG entry).contents) (e : CFEdge) :
    ((state.toCFG entry).predEdges e.dst).count e = ((state.toCFG entry).succEdges e.src).count e := by
  cases src : e.src with
  | none =>
      have absent : e ∉ (state.toCFG entry).predEdges e.dst := fun listed => by
        have inside := (wellFormed.edge_mem ((wellFormed.edge_iff_pred _ _).mpr ⟨e, listed, rfl⟩)).1
        exact real (src ▸ inside)
      exact List.count_eq_zero.mpr absent
  | some a =>
      cases dst : e.dst with
      | none =>
          have absent : e ∉ (state.toCFG entry).succEdges (some a) := fun listed => by
            have inside := (wellFormed.succ_mem _ e listed).2
            exact real (dst ▸ inside)
          exact (List.count_eq_zero.mpr absent).symm
      | some b => exact (balanced e a b src dst).symm

/-- The graph of a nested function is built, validated and analysed without an error. Its
    edges are the lexical ones if and only if no merge is found on a path that has left, by a
    join, the construct of the merge's kind that it entered last. -/
theorem cfg_exact_iff_mergesInPlace (f : Function) (scope : AbsId → List Frame) (nested : f.Nested scope) :
    ∃ result, newCfg f f.self defaultForwardCfgBuild = .ok result ∧
      (result.cfg.Lexical f scope ↔ f.MergesInPlace scope) := by
  obtain ⟨state, built, found, nodes⟩ := Function.buildCfg_nested nested
  obtain ⟨rpo, tree, analysed⟩ := newCfg_total rfl built
  obtain ⟨wellFormed, reachable⟩ := buildCfg_spec built
  have real := buildCfg_real built
  refine ⟨_, analysed, ?_⟩
  have exact : ∀ {a path t}, (a, path) ∈ f.foundFrom scope → f.terminator a = some t →
      ((state.succEdges a).Perm (f.edgesIn (scope a) a) ↔
        ∀ kind ∈ t.merges, (f.entered path a).find? kind = (scope a).find? kind) := by
    intro a path t isFound ends
    rw [← Function.leaves_eq_iff nested (found.sound _ isFound) ends,
      ← Function.edgesIn_perm_iff ends (f.entered path a) (scope a)]
    have added := found.added _ isFound
    exact ⟨fun same => added.symm.trans same, fun same => added.trans same⟩
  constructor
  · intro lexical item isFound t ends kind isMerge
    have inside : some item.1 ∈ (state.toCFG f.self).contents := by
      rw [nodes, found.nodes]
      exact List.mem_map_of_mem isFound
    exact (exact isFound ends).mp (lexical.edges item.1 inside) kind isMerge
  · intro inPlace
    refine ⟨rfl, wellFormed, reachable, real, fun a inside => ?_,
      BuildState.toCFG_balanced found.balanced wellFormed real⟩
    obtain ⟨path, isFound⟩ := found.of_node ((nodes a).mp inside)
    cases ends : f.terminator a with
    | none =>
        have nothing : ∀ frames, f.edgesIn frames a = [] := fun frames => by rw [Function.edgesIn, ends]
        have added := found.added _ isFound
        rw [nothing] at added ⊢
        exact added
    | some t => exact (exact isFound ends).mpr fun kind isMerge => inPlace _ isFound t ends kind isMerge

/-! ## A loop that a control leaves -/

instance (f : Function) (b : AbsId) : Decidable (f.IsBlock b) :=
  decidable_of_iff (∃ abs ∈ f.get b, abs.isFunction = false) Iff.rfl

theorem Function.listed_of_terminator {f : Function} {a : AbsId} {t : Terminator}
    (ends : f.terminator a = some t) : ∃ entry ∈ f.abstractions, entry.1 = a ∧ entry.2.body = some t := by
  obtain ⟨abs, got, body⟩ := Option.bind_eq_some_iff.mp ends
  obtain ⟨before, after, split, -⟩ := List.lookup_eq_some_iff.mp got
  exact ⟨(a, abs), by rw [split]; simp, rfl, body⟩

/-- Nesting, from checks on the listed blocks, where all joins have their control around. -/
theorem Function.nested_of_listed {f : Function} {scope : AbsId → List Frame}
    (self : ∃ abs, f.get f.self = some abs) (start : scope f.self = [])
    (places : ∀ entry ∈ f.abstractions, ∀ t ∈ entry.2.body,
      (∀ j ∈ t.jumps, f.IsBlock j.target ∧ scope j.target = scope entry.1) ∧
      (∀ b ∈ t.bodies, f.IsBlock b ∧ ∃ frame ∈ f.frame t, scope b = frame :: scope entry.1) ∧
      (∀ b ∈ t.tail?, f.IsBlock b ∧ scope b = scope entry.1) ∧
      (∀ kind ∈ t.merges, ∃ frame ∈ scope entry.1, kind frame = true) ∧ t.structuralTargets.Nodup)
    (joins : ∀ entry ∈ f.abstractions, ∀ token, entry.2.body = some (.join token) →
      ∃ tail, .control token tail ∈ scope entry.1)
    (pairs : ∀ entry ∈ f.abstractions, ∀ t ∈ entry.2.body, ∀ entry' ∈ f.abstractions, ∀ t' ∈ entry'.2.body,
      (∀ frame ∈ f.frame t, ∀ frame' ∈ f.frame t', frame.isSelection ∨ frame.isLoop ∨ frame'.isSelection ∨
        frame'.isLoop ∨ entry.1 = entry'.1) ∧
      (∀ b ∈ t.structuralTargets, b ∈ t'.structuralTargets → entry.1 = entry'.1) ∧
      ∀ j ∈ t.jumps, j.target ∉ t'.structuralTargets) : f.Nested scope := by
  have placed : ∀ {a t}, f.terminator a = some t →
      (∀ j ∈ t.jumps, f.IsBlock j.target ∧ scope j.target = scope a) ∧
      (∀ b ∈ t.bodies, f.IsBlock b ∧ ∃ frame ∈ f.frame t, scope b = frame :: scope a) ∧
      (∀ b ∈ t.tail?, f.IsBlock b ∧ scope b = scope a) ∧
      (∀ kind ∈ t.merges, ∃ frame ∈ scope a, kind frame = true) ∧ t.structuralTargets.Nodup := by
    intro a t ends
    obtain ⟨entry, member, rfl, body⟩ := listed_of_terminator ends
    exact places entry member t body
  have paired : ∀ {a a' t t'}, f.terminator a = some t → f.terminator a' = some t' →
      (∀ frame ∈ f.frame t, ∀ frame' ∈ f.frame t', frame.isSelection ∨ frame.isLoop ∨ frame'.isSelection ∨
        frame'.isLoop ∨ a = a') ∧
      (∀ b ∈ t.structuralTargets, b ∈ t'.structuralTargets → a = a') ∧
      ∀ j ∈ t.jumps, j.target ∉ t'.structuralTargets := by
    intro a a' t t' ends ends'
    obtain ⟨entry, member, rfl, body⟩ := listed_of_terminator ends
    obtain ⟨entry', member', rfl, body'⟩ := listed_of_terminator ends'
    exact pairs entry member t body entry' member' t' body'
  constructor
  · exact self
  · exact start
  · exact fun a t ends => (placed ends).1
  · exact fun a t ends => (placed ends).2.1
  · exact fun a t ends => (placed ends).2.2.1
  · exact fun a t kind ends isMerge => (placed ends).2.2.2.1 kind isMerge
  · intro a token ends
    obtain ⟨entry, member, rfl, body⟩ := listed_of_terminator ends
    exact .inl (joins entry member token body)
  · intro c c' inside inside' tail tail' token ends ends' own own'
    have around : f.frame (.control inside tail) = some (.control token tail) := by
      rw [Function.frame, own, Option.map_some]
    have around' : f.frame (.control inside' tail') = some (.control token tail') := by
      rw [Function.frame, own', Option.map_some]
    simpa [Frame.isSelection, Frame.isLoop] using (paired ends ends').1 _ around _ around'
  · exact fun a t ends => (placed ends).2.2.2.2
  · exact fun a a' t t' b ends ends' => (paired ends ends').2.1 b
  · exact fun a a' t t' ends ends' => (paired ends ends').2.2

/-- A loop with a control in its body. Both sides of the `if` in the control leave it, and
    the tail of the control leaves the loop. -/
def controlInLoop : Function := ⟨0, [
  (0, ⟨true, [], some (.loopInstr 1 2)⟩),
  (1, ⟨false, [], some (.control 3 4)⟩),
  (2, ⟨false, [], some .fnRet⟩),
  (3, ⟨false, [100], some (.ifInstr 5 none 6)⟩),
  (4, ⟨false, [], some .mergeBreak⟩),
  (5, ⟨false, [], some (.join 100)⟩),
  (6, ⟨false, [], some (.join 100)⟩)]⟩

/-- The same with a loop in the control. -/
def loopInControl : Function := ⟨0, [
  (0, ⟨true, [], some (.loopInstr 1 2)⟩),
  (1, ⟨false, [], some (.control 3 4)⟩),
  (2, ⟨false, [], some .fnRet⟩),
  (3, ⟨false, [100], some (.loopInstr 5 6)⟩),
  (4, ⟨false, [], some .mergeBreak⟩),
  (5, ⟨false, [], some (.join 100)⟩),
  (6, ⟨false, [], some .unreachable⟩)]⟩

/-- The constructs around the blocks of either, with this one around block 5 alone. -/
def aroundBlocks (inner : Frame) : AbsId → List Frame
  | 1 => [.loop 1 2]
  | 3 => [.control 100 4, .loop 1 2]
  | 4 => [.loop 1 2]
  | 5 => [inner, .control 100 4, .loop 1 2]
  | 6 => [.control 100 4, .loop 1 2]
  | _ => []

theorem controlInLoop_nested : controlInLoop.Nested (aroundBlocks (.selection 6)) := by
  refine Function.nested_of_listed ⟨_, rfl⟩ rfl (by decide) ?_ (by decide)
  simp [controlInLoop, aroundBlocks]

theorem loopInControl_nested : loopInControl.Nested (aroundBlocks (.loop 5 6)) := by
  refine Function.nested_of_listed ⟨_, rfl⟩ rfl (by decide) ?_ (by decide)
  simp [loopInControl, aroundBlocks]

/-- An `if` does not hide the loop that the tail of the control leaves. -/
theorem controlInLoop_exact : ∃ result, newCfg controlInLoop 0 defaultForwardCfgBuild = .ok result ∧
    result.cfg.Lexical controlInLoop (aroundBlocks (.selection 6)) := by
  obtain ⟨result, built, exact⟩ :=
    cfg_exact_iff_mergesInPlace controlInLoop (aroundBlocks (.selection 6)) controlInLoop_nested
  refine ⟨result, built, exact.mpr ?_⟩
  unfold Function.MergesInPlace
  decide

/-- The tail of the control is found from inside the inner loop, so that its break is taken
    to leave that one. -/
theorem loopInControl_break_misplaced : loopInControl.Nested (aroundBlocks (.loop 5 6)) ∧
    ∃ result, newCfg loopInControl 0 defaultForwardCfgBuild = .ok result ∧
      (result.cfg.succEdges (some 4)).map (·.dst) = [some 6] ∧
      (loopInControl.edgesIn (aroundBlocks (.loop 5 6) 4) 4).map (·.dst) = [some 2] ∧
      ¬ result.cfg.Lexical loopInControl (aroundBlocks (.loop 5 6)) := by
  have summary : (newCfg loopInControl 0 defaultForwardCfgBuild).map (fun result =>
      (decide (some 4 ∈ result.cfg.contents), (result.cfg.succEdges (some 4)).map (·.dst))) =
      .ok (true, [some 6]) := by
    decide
  refine ⟨loopInControl_nested, ?_⟩
  cases built : newCfg loopInControl 0 defaultForwardCfgBuild with
  | error e =>
      rw [built] at summary
      cases summary
  | ok result =>
      rw [built] at summary
      obtain ⟨inside, leads⟩ := Prod.mk.inj (Except.ok.inj summary)
      refine ⟨result, rfl, leads, rfl, fun lexical => ?_⟩
      have same := (lexical.edges 4 (of_decide_eq_true inside)).map (·.dst)
      rw [leads] at same
      exact absurd (List.singleton_perm_singleton.mp same) (by decide)

end Shady
