import Shady.Analysis.LooptreeWalk
import Shady.Analysis.FlipCfg

/-!
# Exact loop trees

One level of the loop tree is the list of the components of the parent's nodes,
with the edges to the parent's heads cut. The walks from the heads together visit
every node of the parent once: what an earlier walk has visited can only be
entered through nodes that have become heads since.
-/

set_option autoImplicit false

namespace Shady
open Dominance Fallible Tarjan

/-! ## The statement -/

mutual
/-- The leaves of a tree, each with the `cf_nodes` of the nodes above it. -/
def LTNode.leaves (parents : List (List CFNodeId)) : LTNode → List LTLeaf
  | .leaf _ cfNodes => [⟨cfNodes, parents⟩]
  | .head _ cfNodes children => leavesOfChildren (cfNodes :: parents) children

def leavesOfChildren (parents : List (List CFNodeId)) : List LTNode → List LTLeaf
  | [] => []
  | child :: children => child.leaves parents ++ leavesOfChildren parents children
end

mutual
/-- The nodes of the graph that a tree has as leaves. -/
def LTNode.nodes : LTNode → List CFNodeId
  | .leaf _ cfNodes => cfNodes
  | .head _ _ children => nodesOfChildren children

def nodesOfChildren : List LTNode → List CFNodeId
  | [] => []
  | child :: children => child.nodes ++ nodesOfChildren children
end

def LTNode.type : LTNode → LTNodeType
  | .leaf _ _ => .leaf
  | .head _ _ _ => .head

def LTNode.cfNodes : LTNode → List CFNodeId
  | .leaf _ cfNodes => cfNodes
  | .head _ cfNodes _ => cfNodes

/-- The graph restricted to `nodes`, without the edges to `heads`. -/
def LevelEdge (cfg : CFG) (nodes heads : List CFNodeId) (p v : CFNodeId) : Prop :=
  cfg.Edge p v ∧ p ∈ nodes ∧ v ∈ nodes ∧ v ∉ heads

/-- Each of the two nodes leads to the other, in one step at least. -/
def OnCommonCycle (R : CFNodeId → CFNodeId → Prop) (u v : CFNodeId) : Prop :=
  Relation.TransGen R u v ∧ Relation.TransGen R v u

/-- The children of a node with the given heads stand for the components of the graph
restricted to the nodes below, without the edges to the heads. -/
structure ExactLevel (cfg : CFG) (heads : List CFNodeId) (children : List LTNode) : Prop where
  once : (nodesOfChildren children).Nodup
  component : ∀ child ∈ children,
    IsComponent (LevelEdge cfg (nodesOfChildren children) heads) (· ∈ child.nodes)
  cyclic : ∀ child ∈ children, child.type = .head ↔
    ∃ v ∈ child.nodes, Relation.TransGen (LevelEdge cfg (nodesOfChildren children) heads) v v
  entered : ∀ child ∈ children, child.cfNodes.Nodup ∧ ∀ v, v ∈ child.cfNodes ↔
    v ∈ child.nodes ∧ (v = cfg.entry ∨ ∃ p, p ∉ child.nodes ∧ cfg.Edge p v)
  shared : ∀ u v, (∃ child ∈ children, child.type = .head ∧ u ∈ child.nodes ∧ v ∈ child.nodes) ↔
    OnCommonCycle (LevelEdge cfg (nodesOfChildren children) heads) u v

/-- A tree that is exact at every level. -/
inductive LTNode.Exact (cfg : CFG) : LTNode → Prop
  | leaf (depth : Nat) (n : CFNodeId) : LTNode.Exact cfg (.leaf depth [n])
  | head (depth : Nat) {heads : List CFNodeId} {children : List LTNode}
      (below : ∀ child ∈ children, LTNode.Exact cfg child)
      (level : ExactLevel cfg heads children) : LTNode.Exact cfg (.head depth heads children)

/-! ## One level -/

/-- The flags at the start of a level: `nodes` are the nodes of the parent, `heads` those
whose edges are cut, and the walks begin at `starts`. -/
structure Level (cfg : CFG) (nodes heads starts : List CFNodeId)
    (isHead : CFNodeId → Bool) : Prop where
  nodup : nodes.Nodup
  inside : ∀ v ∈ nodes, v ∈ cfg.contents
  exits : ∀ p ∈ nodes, ∀ v, cfg.Edge p v → v ∉ nodes → isHead v = true
  inner : ∀ v ∈ nodes, isHead v = true ↔ v ∈ heads
  heads_nodes : ∀ v ∈ heads, v ∈ nodes
  heads_entered : ∀ v ∈ heads, v = cfg.entry ∨ ∃ p, p ∉ nodes ∧ cfg.Edge p v
  starts_nodup : starts.Nodup
  starts_nodes : ∀ v ∈ starts, v ∈ nodes
  starts_heads : ∀ v ∈ starts, v ∈ heads ∨ starts = [v]
  covers : ∀ v ∈ nodes, ∃ s ∈ starts, Path (WalkEdge cfg isHead) s v

section OneLevel
variable {cfg : CFG} {nodes heads starts : List CFNodeId} {isHead : CFNodeId → Bool}

theorem Level.edge_iff (level : Level cfg nodes heads starts isHead) {p v : CFNodeId}
    (inside : p ∈ nodes) : WalkEdge cfg isHead p v ↔ LevelEdge cfg nodes heads p v := by
  constructor
  · intro follows
    have member : v ∈ nodes := by
      by_contra outside
      have marked := level.exits p inside v follows.1 outside
      simp [follows.2] at marked
    refine ⟨follows.1, inside, member, fun isHeadV => ?_⟩
    have marked := (level.inner v member).mpr isHeadV
    simp [follows.2] at marked
  · intro follows
    refine ⟨follows.1, ?_⟩
    by_contra marked
    exact follows.2.2.2 ((level.inner v follows.2.2.1).mp (by simpa using marked))

theorem Level.path_iff (level : Level cfg nodes heads starts isHead) {u v : CFNodeId}
    (inside : u ∈ nodes) :
    Path (WalkEdge cfg isHead) u v ↔ Path (LevelEdge cfg nodes heads) u v := by
  constructor
  · intro path
    suffices both : Path (LevelEdge cfg nodes heads) u v ∧ v ∈ nodes from both.1
    induction path with
    | refl => exact ⟨Relation.ReflTransGen.refl, inside⟩
    | tail _ follows ih =>
        have edge := (level.edge_iff ih.2).mp follows
        exact ⟨ih.1.tail edge, edge.2.2.1⟩
  · exact Relation.ReflTransGen.mono (fun p v follows => (level.edge_iff follows.2.1).mpr follows)
      _ _

theorem Level.path_inside (level : Level cfg nodes heads starts isHead) {u v : CFNodeId}
    (inside : u ∈ nodes) (path : Path (WalkEdge cfg isHead) u v) : v ∈ nodes := by
  induction path with
  | refl => exact inside
  | tail _ follows ih => exact ((level.edge_iff ih).mp follows).2.2.1

theorem Level.mutual_iff (level : Level cfg nodes heads starts isHead) {u v : CFNodeId}
    (inside : u ∈ nodes) :
    Mutual (WalkEdge cfg isHead) u v ↔ Mutual (LevelEdge cfg nodes heads) u v := by
  constructor
  · intro both
    have insideV := level.path_inside inside both.1
    exact ⟨(level.path_iff inside).mp both.1, (level.path_iff insideV).mp both.2⟩
  · intro both
    have widen : ∀ p v, LevelEdge cfg nodes heads p v → WalkEdge cfg isHead p v :=
      fun p v follows => (level.edge_iff follows.2.1).mpr follows
    exact ⟨Relation.ReflTransGen.mono widen _ _ both.1,
      Relation.ReflTransGen.mono widen _ _ both.2⟩

theorem Level.cycle_iff (level : Level cfg nodes heads starts isHead) {u v : CFNodeId}
    (inside : u ∈ nodes) : Relation.TransGen (WalkEdge cfg isHead) u v ↔
      Relation.TransGen (LevelEdge cfg nodes heads) u v := by
  rw [Relation.TransGen.head'_iff, Relation.TransGen.head'_iff]
  apply exists_congr
  intro w
  rw [level.edge_iff inside]
  refine and_congr_right fun follows => ?_
  exact level.path_iff follows.2.2.1

/-- The state of the loop over the heads: what has been visited so far is closed, and
can be entered only at nodes that are marked by now. -/
structure Visits (cfg : CFG) (nodes heads done : List CFNodeId) (isHead : CFNodeId → Bool)
    (ltb : LoopTreeBuilder) (sccs : List (List CFNodeId)) : Prop where
  marked : ltb.Marked
  bare : ltb.stack = []
  children : ltb.children = sccs.map (childOf cfg isHead)
  marks : ∀ v, ltb.isHead v = true ↔
    isHead v = true ∨ ∃ scc ∈ sccs, v ∈ scc ∧ entersScc cfg scc v = true
  nonempty : ∀ scc ∈ sccs, scc ≠ []
  component : ∀ scc ∈ sccs, IsComponent (WalkEdge cfg isHead) (· ∈ scc)
  disjoint : sccs.flatten.Nodup
  inside : ∀ v ∈ sccs.flatten, v ∈ nodes
  closed : ∀ v ∈ sccs.flatten, ∀ w, WalkEdge cfg isHead v w → w ∈ sccs.flatten
  starts : ∀ v ∈ done, v ∈ sccs.flatten
  headsDone : ∀ v ∈ sccs.flatten, v ∈ heads → v ∈ done
  begun : ∀ v ∈ sccs.flatten, done ≠ []

theorem entersScc_iff (wellFormed : cfg.WellFormed) (scc : List CFNodeId) (n : CFNodeId) :
    entersScc cfg scc n = true ↔ n = cfg.entry ∨ ∃ p, p ∉ scc ∧ cfg.Edge p n := by
  simp only [entersScc, decide_eq_true_eq]
  constructor
  · rintro (isEntry | ⟨e, member, outside⟩)
    · exact Or.inl isEntry.symm
    · exact Or.inr ⟨e.src, outside, (wellFormed.edge_iff_pred _ n).mpr ⟨e, member, rfl⟩⟩
  · rintro (isEntry | ⟨p, outside, taken⟩)
    · exact Or.inl isEntry.symm
    · obtain ⟨e, member, rfl⟩ := (wellFormed.edge_iff_pred p n).mp taken
      exact Or.inr ⟨e, member, outside⟩

/-- A child does not depend on marks outside of its component. -/
theorem childOf_congr {scc : List CFNodeId} {left right : CFNodeId → Bool}
    (same : ∀ v ∈ scc, left v = right v) : childOf cfg left scc = childOf cfg right scc := by
  have leaf : (scc.length = 1 ∧ ∀ n ∈ scc, ∀ e ∈ cfg.succEdges n,
        left e.dst = true ∨ e.dst ≠ n) ↔
      (scc.length = 1 ∧ ∀ n ∈ scc, ∀ e ∈ cfg.succEdges n, right e.dst = true ∨ e.dst ≠ n) := by
    refine and_congr_right fun _ => forall₂_congr fun n member => forall₂_congr fun e _ => ?_
    by_cases self : e.dst = n
    · rw [self, same n member]
    · simp [self]
  simp only [childOf, leaf]

/-- One walk more. -/
theorem walkHead_spec (wellFormed : cfg.WellFormed)
    (reachable : ∀ v ∈ cfg.contents, Reachable cfg.Edge cfg.entry v)
    (level : Level cfg nodes heads starts isHead) {done : List CFNodeId}
    {ltb : LoopTreeBuilder} {sccs : List (List CFNodeId)}
    (visits : Visits cfg nodes heads done isHead ltb sccs) {h : CFNodeId} (start : h ∈ starts)
    (fresh : h ∉ sccs.flatten) :
    ∃ after more, walkHead cfg ltb h = .ok after ∧
      Visits cfg nodes heads (done ++ [h]) isHead after (sccs ++ more) := by
  have insideH := level.starts_nodes h start
  obtain ⟨walk, more, ran, walked⟩ := walkScc_spec wellFormed reachable cfg.size h []
    { ltb with inSet := fun _ => false, counter := 0 }
    (Search.Valid.empty (by simp [LoopTreeBuilder.search]) visits.bare) visits.marked
    (level.inside h insideH) rfl (by simp) List.countP_le_length
  have validWalk := walked.valid
  have reachedWalk := walked.reached
  have completes := walked.completes
  have sameHead := walked.keeps.isHead
  change walk.isHead = ltb.isHead at sameHead
  change walk.search.Valid (WalkEdge cfg ltb.isHead) [] at validWalk
  -- with no call left nothing is on the stack
  have bare : walk.stack = [] := by
    rw [List.eq_nil_iff_forall_not_mem]
    intro v member
    obtain ⟨g, active, -⟩ := validWalk.climbs v member
    simp at active
  have emitted : ∀ v, v ∈ more.flatten ↔ walk.inSet v = true := by
    intro v
    rw [completes.emitted v, bare]
    simp
  have reached : ∀ v ∈ more.flatten, Path (WalkEdge cfg ltb.isHead) h v := fun v member =>
    reachedWalk v ((emitted v).mp member) rfl
  have wider : ∀ p v, WalkEdge cfg ltb.isHead p v → WalkEdge cfg isHead p v := by
    intro p v follows
    refine ⟨follows.1, ?_⟩
    by_contra blocked
    have marked := (visits.marks v).mpr (Or.inl (by simpa using blocked))
    simp [follows.2] at marked
  have newOutside : ∀ v, Path (WalkEdge cfg ltb.isHead) h v → v ∉ sccs.flatten := by
    intro v path
    induction path with
    | refl => exact fresh
    | @tail p v _ follows ih =>
        intro member
        obtain ⟨scc, listed, inScc⟩ := List.mem_flatten.mp member
        have outside : p ∉ scc := fun inside => ih (List.mem_flatten.mpr ⟨scc, listed, inside⟩)
        have enters := (entersScc_iff wellFormed scc v).mpr (Or.inr ⟨p, outside, follows.1⟩)
        have marked := (visits.marks v).mpr (Or.inr ⟨scc, listed, inScc, enters⟩)
        simp [follows.2] at marked
  have narrow : ∀ p v, WalkEdge cfg isHead p v → v ∉ sccs.flatten →
      WalkEdge cfg ltb.isHead p v := by
    intro p v follows outside
    refine ⟨follows.1, ?_⟩
    by_contra marked
    rcases (visits.marks v).mp (by simpa using marked) with blocked | ⟨scc, listed, inScc, -⟩
    · simp [follows.2] at blocked
    · exact outside (List.mem_flatten.mpr ⟨scc, listed, inScc⟩)
  have narrowPath : ∀ u v, Path (WalkEdge cfg isHead) u v → v ∉ sccs.flatten →
      Path (WalkEdge cfg ltb.isHead) u v := by
    intro u v path
    induction path with
    | refl => exact fun _ => Relation.ReflTransGen.refl
    | @tail b c _ follows ih =>
        intro outside
        have outsideB : b ∉ sccs.flatten := fun member => outside (visits.closed b member c follows)
        exact (ih outsideB).tail (narrow b c follows outside)
  have sameChild : ∀ scc ∈ more, childOf cfg ltb.isHead scc = childOf cfg isHead scc := by
    intro scc listed
    apply childOf_congr
    intro v inScc
    have member : v ∈ more.flatten := List.mem_flatten.mpr ⟨scc, listed, inScc⟩
    have outside := newOutside v (reached v member)
    rw [Bool.eq_iff_iff, visits.marks v]
    constructor
    · rintro (blocked | ⟨old, listedOld, inOld, -⟩)
      · exact blocked
      · exact absurd (List.mem_flatten.mpr ⟨old, listedOld, inOld⟩) outside
    · exact Or.inl
  have childrenWalk : walk.children = (sccs ++ more).map (childOf cfg isHead) := by
    rw [completes.children, List.map_append]
    change ltb.children ++ _ = _
    rw [visits.children, List.map_congr_left sameChild]
  have newMarks : ∀ v, v ∈ (walk.children.drop ltb.children.length).flatMap (·.cfNodes) ↔
      ∃ scc ∈ more, v ∈ scc ∧ entersScc cfg scc v = true := by
    intro v
    rw [childrenWalk, visits.children, List.map_append, List.drop_left]
    simp [childOf]
  refine ⟨_, more, by unfold walkHead; rw [bind_eq_ok]; exact ⟨walk, ran, rfl⟩, ?_⟩
  exact
    { marked := walked.marked
      bare := bare
      children := childrenWalk
      marks := by
        intro v
        change (if v ∈ (walk.children.drop ltb.children.length).flatMap (·.cfNodes) then true
          else walk.isHead v) = true ↔ _
        simp only [newMarks v, sameHead]
        split_ifs with new
        · obtain ⟨scc, listed, rest⟩ := new
          simp only [true_iff]
          exact Or.inr ⟨scc, List.mem_append_right _ listed, rest⟩
        · rw [visits.marks v]
          refine or_congr_right ?_
          constructor
          · rintro ⟨scc, listed, rest⟩
            exact ⟨scc, List.mem_append_left _ listed, rest⟩
          · rintro ⟨scc, listed, rest⟩
            rcases List.mem_append.mp listed with old | isNew
            · exact ⟨scc, old, rest⟩
            · exact absurd ⟨scc, isNew, rest⟩ new
      nonempty := by
        intro scc member
        rcases List.mem_append.mp member with old | new
        · exact visits.nonempty scc old
        · exact completes.nonempty scc new
      component := by
        intro scc member
        rcases List.mem_append.mp member with old | new
        · exact visits.component scc old
        · intro u inScc v
          have outside : u ∉ sccs.flatten :=
            newOutside u (reached u (List.mem_flatten.mpr ⟨scc, new, inScc⟩))
          have component := completes.component scc new u inScc v
          change Mutual (WalkEdge cfg ltb.isHead) u v ↔ _ at component
          rw [← component]
          constructor
          · intro both
            have outsideV : v ∉ sccs.flatten := fun member =>
              outside (path_closed visits.closed both.2 member)
            exact ⟨narrowPath u v both.1 outsideV, narrowPath v u both.2 outside⟩
          · intro both
            exact ⟨Relation.ReflTransGen.mono wider _ _ both.1,
              Relation.ReflTransGen.mono wider _ _ both.2⟩
      disjoint := by
        rw [List.flatten_append]
        apply visits.disjoint.append completes.disjoint
        intro v old new
        exact newOutside v (reached v new) old
      inside := by
        intro v member
        rw [List.flatten_append, List.mem_append] at member
        rcases member with old | new
        · exact visits.inside v old
        · exact level.path_inside insideH
            (Relation.ReflTransGen.mono wider _ _ (reached v new))
      closed := by
        intro v member w follows
        rw [List.flatten_append, List.mem_append] at member ⊢
        rcases member with old | new
        · exact Or.inl (visits.closed v old w follows)
        · by_cases outside : w ∈ sccs.flatten
          · exact Or.inl outside
          · right
            rw [emitted]
            exact validWalk.finished v ((emitted v).mp new) (by simp) w (narrow v w follows outside)
      starts := by
        intro v member
        rw [List.flatten_append, List.mem_append]
        rcases List.mem_append.mp member with old | new
        · exact Or.inl (visits.starts v old)
        · right
          rw [emitted, List.mem_singleton.mp new]
          exact walked.met
      headsDone := by
        intro v member isHeadV
        rw [List.flatten_append, List.mem_append] at member
        rcases member with old | new
        · exact List.mem_append_left _ (visits.headsDone v old isHeadV)
        · -- a head is only visited by the walk that starts there
          apply List.mem_append_right
          rw [List.mem_singleton]
          rcases Relation.ReflTransGen.cases_tail (reached v new) with same | ⟨p, -, follows⟩
          · exact same
          · have blocked := (level.inner v (level.heads_nodes v isHeadV)).mpr isHeadV
            have unblocked := (wider p v follows).2
            simp [blocked] at unblocked
      begun := by simp }

/-- All walks of a level. -/
theorem walkHeads_spec (wellFormed : cfg.WellFormed)
    (reachable : ∀ v ∈ cfg.contents, Reachable cfg.Edge cfg.entry v)
    (level : Level cfg nodes heads starts isHead) (rest : List CFNodeId) :
    ∀ done ltb sccs, done ++ rest = starts → Visits cfg nodes heads done isHead ltb sccs →
      ∃ after all, rest.foldlM (walkHead cfg) ltb = .ok after ∧
        Visits cfg nodes heads starts isHead after all := by
  induction rest with
  | nil =>
      intro done ltb sccs split visits
      rw [List.append_nil] at split
      exact ⟨ltb, sccs, rfl, split ▸ visits⟩
  | cons h rest ih =>
      intro done ltb sccs split visits
      have start : h ∈ starts := split ▸ List.mem_append_right _ List.mem_cons_self
      have nodup := level.starts_nodup
      rw [← split] at nodup
      have notDone : h ∉ done := fun member =>
        List.disjoint_of_nodup_append nodup member List.mem_cons_self
      have fresh : h ∉ sccs.flatten := by
        intro member
        rcases level.starts_heads h start with isHeadH | alone
        · exact notDone (visits.headsDone h member isHeadH)
        · -- the only walk of the level has not run yet
          apply visits.begun h member
          rw [alone] at split
          cases done with
          | nil => rfl
          | cons d done => simp at split
      obtain ⟨middle, more, ran, next⟩ :=
        walkHead_spec wellFormed reachable level visits start fresh
      obtain ⟨after, all, ranRest, final⟩ :=
        ih (done ++ [h]) middle (sccs ++ more) (by simpa using split) next
      refine ⟨after, all, ?_, final⟩
      rw [List.foldlM_cons, ran]
      exact ranRest

/-! ## The components of a level -/

/-- The walks from all starts visit every node of the level. -/
theorem Visits.all (level : Level cfg nodes heads starts isHead) {ltb : LoopTreeBuilder}
    {sccs : List (List CFNodeId)} (visits : Visits cfg nodes heads starts isHead ltb sccs)
    (v : CFNodeId) : v ∈ sccs.flatten ↔ v ∈ nodes := by
  constructor
  · exact visits.inside v
  · intro inside
    obtain ⟨s, start, path⟩ := level.covers v inside
    exact path_closed visits.closed path (visits.starts s start)

/-- A component that is no leaf is a loop. -/
theorem childOf_head_iff {scc : List CFNodeId} (nodup : scc.Nodup)
    (component : IsComponent (WalkEdge cfg isHead) (· ∈ scc)) (nonempty : scc ≠ []) :
    (childOf cfg isHead scc).type = .head ↔
      ∃ v ∈ scc, Relation.TransGen (WalkEdge cfg isHead) v v := by
  constructor
  · intro isHeadChild
    cases scc with
    | nil => exact absurd rfl nonempty
    | cons n rest =>
        cases rest with
        | nil =>
            -- a single node that is no leaf has an edge to itself
            by_contra none
            push Not at none
            have leaf : (childOf cfg isHead [n]).type = .leaf := by
              unfold childOf
              rw [if_pos]
              refine ⟨rfl, fun m member e listed => ?_⟩
              obtain rfl := List.mem_singleton.mp member
              by_contra self
              rw [not_or, not_not] at self
              refine none m List.mem_cons_self (Relation.TransGen.single ⟨⟨e, listed, self.2⟩, ?_⟩)
              rw [← self.2]
              simpa using self.1
            simp [leaf] at isHeadChild
        | cons m rest =>
            have different : n ≠ m := by
              rintro rfl
              simp at nodup
            have both := (component n List.mem_cons_self m).mpr (by simp)
            refine ⟨n, List.mem_cons_self, ?_⟩
            rcases Relation.reflTransGen_iff_eq_or_transGen.mp both.1 with same | forth
            · exact absurd same.symm different
            · exact forth.trans_left both.2
  · rintro ⟨v, member, cycle⟩
    unfold childOf
    rw [if_neg]
    rintro ⟨one, noSelf⟩
    obtain ⟨w, follows, back⟩ := Relation.TransGen.head'_iff.mp cycle
    have inScc : w ∈ scc := (component v member w).mp ⟨Relation.ReflTransGen.single follows, back⟩
    obtain ⟨n, rfl⟩ := List.length_eq_one_iff.mp one
    obtain rfl := List.mem_singleton.mp member
    obtain rfl := List.mem_singleton.mp inScc
    obtain ⟨⟨e, listed, self⟩, unblocked⟩ := follows
    rcases noSelf w List.mem_cons_self e listed with blocked | other
    · rw [self] at blocked
      simp [unblocked] at blocked
    · exact other self

theorem mem_childOf_cfNodes (wellFormed : cfg.WellFormed) (scc : List CFNodeId) (v : CFNodeId) :
    v ∈ (childOf cfg isHead scc).cfNodes ↔
      v ∈ scc ∧ (v = cfg.entry ∨ ∃ p, p ∉ scc ∧ cfg.Edge p v) := by
  simp only [childOf, List.mem_filter, entersScc_iff wellFormed]

/-- A leaf has a single node, which is its head. -/
theorem childOf_leaf (wellFormed : cfg.WellFormed)
    (reachable : ∀ v ∈ cfg.contents, Reachable cfg.Edge cfg.entry v) {scc : List CFNodeId}
    (inside : ∀ v ∈ scc, v ∈ cfg.contents) (leaf : (childOf cfg isHead scc).type = .leaf) :
    ∃ n, scc = [n] ∧ (childOf cfg isHead scc).cfNodes = [n] := by
  have one : scc.length = 1 := by
    unfold childOf at leaf
    split_ifs at leaf with single
    exact single.1
  obtain ⟨n, rfl⟩ := List.length_eq_one_iff.mp one
  refine ⟨n, rfl, ?_⟩
  have enters : entersScc cfg [n] n = true := by
    rw [entersScc_iff wellFormed]
    rcases entered_of_reachable (reachable n (inside n List.mem_cons_self)) with
      isEntry | ⟨p, other, taken⟩
    · exact Or.inl isEntry
    · exact Or.inr ⟨p, by simpa using other, taken⟩
  simp [childOf, enters]

/-- Disjoint lists are told apart by any of their members. -/
theorem eq_of_mem_flatten {lists : List (List CFNodeId)} (disjoint : lists.flatten.Nodup)
    {l m : List CFNodeId} (left : l ∈ lists) (right : m ∈ lists) {v : CFNodeId}
    (inLeft : v ∈ l) (inRight : v ∈ m) : l = m := by
  induction lists with
  | nil => simp at left
  | cons first rest ih =>
      rw [List.flatten_cons] at disjoint
      have apart := List.disjoint_of_nodup_append disjoint
      rcases List.mem_cons.mp left with rfl | leftRest
      · rcases List.mem_cons.mp right with rfl | rightRest
        · rfl
        · exact absurd (List.mem_flatten.mpr ⟨m, rightRest, inRight⟩) (apart inLeft)
      · rcases List.mem_cons.mp right with rfl | rightRest
        · exact absurd (List.mem_flatten.mpr ⟨l, leftRest, inLeft⟩) (apart inRight)
        · exact ih disjoint.of_append_right leftRest rightRest

/-- Inside a loop the flags are again as at the start of a level. -/
theorem Visits.next (wellFormed : cfg.WellFormed)
    (reachable : ∀ v ∈ cfg.contents, Reachable cfg.Edge cfg.entry v)
    (level : Level cfg nodes heads starts isHead) {ltb : LoopTreeBuilder}
    {sccs before after : List (List CFNodeId)}
    (visits : Visits cfg nodes heads starts isHead ltb sccs) {scc : List CFNodeId}
    (split : sccs = before ++ scc :: after) {current : CFNodeId → Bool}
    (kept : ∀ v, ltb.isHead v = true → current v = true)
    (only : ∀ v, current v = true → ltb.isHead v = true ∨ v ∈ before.flatten) :
    Level cfg scc (childOf cfg isHead scc).cfNodes (childOf cfg isHead scc).cfNodes current := by
  have listed : scc ∈ sccs := split ▸ List.mem_append_right _ List.mem_cons_self
  have inFlatten : ∀ v ∈ scc, v ∈ sccs.flatten := fun v member =>
    List.mem_flatten.mpr ⟨scc, listed, member⟩
  have inside : ∀ v ∈ scc, v ∈ nodes := fun v member => visits.inside v (inFlatten v member)
  have disjoint := visits.disjoint
  have sccNodup : scc.Nodup := (List.nodup_flatten.mp disjoint).1 scc listed
  have notBefore : ∀ v ∈ scc, v ∉ before.flatten := by
    intro v member earlier
    rw [split, List.flatten_append, List.flatten_cons] at disjoint
    exact List.disjoint_of_nodup_append disjoint earlier (List.mem_append_left _ member)
  have sameScc : ∀ v ∈ scc, ∀ other ∈ sccs, v ∈ other → other = scc :=
    fun v member other listedOther memberOther =>
      eq_of_mem_flatten visits.disjoint listedOther listed memberOther member
  have heads_mem : ∀ v, v ∈ (childOf cfg isHead scc).cfNodes ↔
      v ∈ scc ∧ (v = cfg.entry ∨ ∃ p, p ∉ scc ∧ cfg.Edge p v) :=
    mem_childOf_cfNodes wellFormed scc
  have inner : ∀ v ∈ scc, current v = true ↔ v ∈ (childOf cfg isHead scc).cfNodes := by
    intro v member
    rw [heads_mem, ← entersScc_iff wellFormed]
    constructor
    · intro marked
      refine ⟨member, ?_⟩
      rcases only v marked with final | earlier
      · rcases (visits.marks v).mp final with blocked | ⟨other, listedOther, memberOther, enters⟩
        · -- a head of the parent is entered from outside of the parent
          rw [entersScc_iff wellFormed]
          rcases level.heads_entered v ((level.inner v (inside v member)).mp blocked) with
            isEntry | ⟨p, outside, taken⟩
          · exact Or.inl isEntry
          · exact Or.inr ⟨p, fun inScc => outside (inside p inScc), taken⟩
        · exact sameScc v member other listedOther memberOther ▸ enters
      · exact absurd earlier (notBefore v member)
    · rintro ⟨-, enters⟩
      exact kept v ((visits.marks v).mpr (Or.inr ⟨scc, listed, member, enters⟩))
  exact
    { nodup := sccNodup
      inside := fun v member => level.inside v (inside v member)
      exits := by
        intro p memberP v taken outside
        apply kept
        rw [visits.marks]
        by_cases insideV : v ∈ nodes
        · obtain ⟨other, listedOther, memberOther⟩ :=
            List.mem_flatten.mp ((visits.all level v).mpr insideV)
          refine Or.inr ⟨other, listedOther, memberOther, ?_⟩
          rw [entersScc_iff wellFormed]
          refine Or.inr ⟨p, fun memberOtherP => ?_, taken⟩
          have same := sameScc p memberP other listedOther memberOtherP
          exact outside (same ▸ memberOther)
        · exact Or.inl (level.exits p (inside p memberP) v taken insideV)
      inner := inner
      heads_nodes := fun v member => ((heads_mem v).mp member).1
      heads_entered := fun v member => ((heads_mem v).mp member).2
      starts_nodup := sccNodup.filter _
      starts_nodes := fun v member => ((heads_mem v).mp member).1
      starts_heads := fun v member => Or.inl member
      covers := by
        -- follow a walk from the entry from where it enters the component last
        suffices along : ∀ v, Reachable cfg.Edge cfg.entry v → v ∈ scc →
            ∃ s ∈ (childOf cfg isHead scc).cfNodes, Path (WalkEdge cfg current) s v from
          fun v member => along v (reachable v (level.inside v (inside v member))) member
        rintro v ⟨visited, walk⟩
        induction walk with
        | start =>
            intro member
            exact ⟨_, (heads_mem _).mpr ⟨member, Or.inl rfl⟩, Relation.ReflTransGen.refl⟩
        | @step p v visited walk taken ih =>
            intro member
            by_cases isStart : v ∈ (childOf cfg isHead scc).cfNodes
            · exact ⟨v, isStart, Relation.ReflTransGen.refl⟩
            · have memberP : p ∈ scc := by
                by_contra outside
                exact isStart ((heads_mem v).mpr ⟨member, Or.inr ⟨p, outside, taken⟩⟩)
              obtain ⟨s, start, path⟩ := ih memberP
              refine ⟨s, start, path.tail ⟨taken, ?_⟩⟩
              by_contra blocked
              exact isStart ((inner v member).mp (by simpa using blocked)) }

end OneLevel

/-! ## All levels -/

/-- A subtree that stands for a component. -/
structure StandsFor (cfg : CFG) (isHead : CFNodeId → Bool) (scc : List CFNodeId)
    (tree : LTNode) : Prop where
  exact : tree.Exact cfg
  type : tree.type = (childOf cfg isHead scc).type
  cfNodes : tree.cfNodes = (childOf cfg isHead scc).cfNodes
  nodup : tree.nodes.Nodup
  nodes : ∀ v, v ∈ tree.nodes ↔ v ∈ scc

theorem nodesOfChildren_spec {cfg : CFG} {isHead : CFNodeId → Bool}
    {sccs : List (List CFNodeId)} {trees : List LTNode}
    (stand : List.Forall₂ (StandsFor cfg isHead) sccs trees) (disjoint : sccs.flatten.Nodup) :
    (nodesOfChildren trees).Nodup ∧ ∀ v, v ∈ nodesOfChildren trees ↔ v ∈ sccs.flatten := by
  induction stand with
  | nil => simp [nodesOfChildren]
  | @cons scc tree sccs trees first rest ih =>
      rw [List.flatten_cons] at disjoint
      have below := ih disjoint.of_append_right
      constructor
      · rw [nodesOfChildren]
        apply first.nodup.append below.1
        intro v left right
        exact List.disjoint_of_nodup_append disjoint ((first.nodes v).mp left)
          ((below.2 v).mp right)
      · intro v
        rw [nodesOfChildren, List.flatten_cons, List.mem_append, List.mem_append, first.nodes v,
          below.2 v]

theorem standsFor_of_mem_right {cfg : CFG} {isHead : CFNodeId → Bool}
    {sccs : List (List CFNodeId)} {trees : List LTNode}
    (stand : List.Forall₂ (StandsFor cfg isHead) sccs trees) :
    ∀ tree ∈ trees, ∃ scc ∈ sccs, StandsFor cfg isHead scc tree := by
  induction stand with
  | nil => simp
  | @cons scc tree sccs trees first _ ih =>
      intro other member
      rcases List.mem_cons.mp member with rfl | later
      · exact ⟨scc, List.mem_cons_self, first⟩
      · obtain ⟨found, listed, stands⟩ := ih other later
        exact ⟨found, List.mem_cons_of_mem _ listed, stands⟩

theorem standsFor_of_mem_left {cfg : CFG} {isHead : CFNodeId → Bool}
    {sccs : List (List CFNodeId)} {trees : List LTNode}
    (stand : List.Forall₂ (StandsFor cfg isHead) sccs trees) :
    ∀ scc ∈ sccs, ∃ tree ∈ trees, StandsFor cfg isHead scc tree := by
  induction stand with
  | nil => simp
  | @cons scc tree sccs trees first _ ih =>
      intro other member
      rcases List.mem_cons.mp member with rfl | later
      · exact ⟨tree, List.mem_cons_self, first⟩
      · obtain ⟨found, listed, stands⟩ := ih other later
        exact ⟨found, List.mem_cons_of_mem _ listed, stands⟩

/-- The list of subtrees that stand for the components of a level is exact. -/
theorem exactLevel_of_visits {cfg : CFG} {nodes heads starts : List CFNodeId}
    {isHead : CFNodeId → Bool} (wellFormed : cfg.WellFormed)
    (level : Level cfg nodes heads starts isHead)
    {ltb : LoopTreeBuilder} {sccs : List (List CFNodeId)}
    (visits : Visits cfg nodes heads starts isHead ltb sccs) {trees : List LTNode}
    (stand : List.Forall₂ (StandsFor cfg isHead) sccs trees) :
    ExactLevel cfg heads trees ∧ ∀ v, v ∈ nodesOfChildren trees ↔ v ∈ nodes := by
  obtain ⟨once, members⟩ := nodesOfChildren_spec stand visits.disjoint
  have same : ∀ v, v ∈ nodesOfChildren trees ↔ v ∈ nodes := fun v =>
    (members v).trans (visits.all level v)
  have sameEdge : LevelEdge cfg (nodesOfChildren trees) heads = LevelEdge cfg nodes heads := by
    funext p v
    simp only [LevelEdge, same]
  have ofTree := standsFor_of_mem_right stand
  have ofScc := standsFor_of_mem_left stand
  have insideScc : ∀ scc ∈ sccs, ∀ v ∈ scc, v ∈ nodes := fun scc listed v member =>
    visits.inside v (List.mem_flatten.mpr ⟨scc, listed, member⟩)
  have nodupScc : ∀ scc ∈ sccs, scc.Nodup := (List.nodup_flatten.mp visits.disjoint).1
  have cyclicScc : ∀ scc ∈ sccs, (childOf cfg isHead scc).type = .head ↔
      ∃ v ∈ scc, Relation.TransGen (LevelEdge cfg nodes heads) v v := by
    intro scc listed
    rw [childOf_head_iff (nodupScc scc listed) (visits.component scc listed)
      (visits.nonempty scc listed)]
    apply exists_congr
    intro v
    refine and_congr_right fun member => level.cycle_iff (insideScc scc listed v member)
  refine ⟨?_, same⟩
  exact
    { once := once
      component := by
        intro child listedChild u memberU v
        obtain ⟨scc, listed, stands⟩ := ofTree child listedChild
        have inScc := (stands.nodes u).mp memberU
        rw [sameEdge, ← level.mutual_iff (insideScc scc listed u inScc)]
        exact (visits.component scc listed u inScc v).trans (stands.nodes v).symm
      cyclic := by
        intro child listedChild
        obtain ⟨scc, listed, stands⟩ := ofTree child listedChild
        rw [sameEdge, stands.type, cyclicScc scc listed]
        simp only [stands.nodes]
      entered := by
        intro child listedChild
        obtain ⟨scc, listed, stands⟩ := ofTree child listedChild
        rw [stands.cfNodes]
        refine ⟨(nodupScc scc listed).filter _, fun v => ?_⟩
        simp only [mem_childOf_cfNodes wellFormed, stands.nodes]
      shared := by
        intro u v
        rw [sameEdge]
        constructor
        · rintro ⟨child, listedChild, isHeadChild, memberU, memberV⟩
          obtain ⟨scc, listed, stands⟩ := ofTree child listedChild
          have inU := (stands.nodes u).mp memberU
          have inV := (stands.nodes v).mp memberV
          rw [stands.type] at isHeadChild
          obtain ⟨w, inW, cycle⟩ := (cyclicScc scc listed).mp isHeadChild
          have between : ∀ a ∈ scc, ∀ b ∈ scc, Path (LevelEdge cfg nodes heads) a b := by
            intro a inA b inB
            have both := (visits.component scc listed a inA b).mpr inB
            exact ((level.mutual_iff (insideScc scc listed a inA)).mp both).1
          have through : ∀ a ∈ scc, ∀ b ∈ scc,
              Relation.TransGen (LevelEdge cfg nodes heads) a b := fun a inA b inB =>
            (cycle.trans_right (between a inA w inW)).trans_left (between w inW b inB)
          exact ⟨through u inU v inV, through v inV u inU⟩
        · rintro ⟨forth, back⟩
          obtain ⟨x, follows, -⟩ := Relation.TransGen.head'_iff.mp forth
          obtain ⟨scc, listed, inU⟩ := List.mem_flatten.mp
            ((visits.all level u).mpr follows.2.1)
          have inV : v ∈ scc := by
            apply (visits.component scc listed u inU v).mp
            rw [level.mutual_iff follows.2.1]
            exact ⟨forth.to_reflTransGen, back.to_reflTransGen⟩
          obtain ⟨child, listedChild, stands⟩ := ofScc scc listed
          refine ⟨child, listedChild, ?_, (stands.nodes u).mpr inU, (stands.nodes v).mpr inV⟩
          rw [stands.type, cyclicScc scc listed]
          exact ⟨u, inU, forth.trans back⟩ }

section Recursion
variable {cfg : CFG}

/-- What a call of `recurse` guarantees. The depth of the recursion is bounded by the
number of nodes, as a loop is smaller than its parent when edges were cut there. -/
def RecurseSpec (cfg : CFG) (fuel : Nat)
    (recurse : List CFNodeId → LoopTreeBuilder → Except CfgError (List LTNode × LoopTreeBuilder)) :
    Prop :=
  ∀ nodes heads starts ltb, Level cfg nodes heads starts ltb.isHead → ltb.Marked →
    ltb.stack = [] → (heads ≠ [] ∧ nodes.length ≤ fuel ∨ nodes.length < fuel) →
    ∃ trees after, recurse starts ltb = .ok (trees, after) ∧
      (∀ tree ∈ trees, tree.Exact cfg) ∧ ExactLevel cfg heads trees ∧
      (∀ v, v ∈ nodesOfChildren trees ↔ v ∈ nodes) ∧ after.Marked ∧ after.stack = [] ∧
      (∀ v, ltb.isHead v = true → after.isHead v = true) ∧
      ∀ v, after.isHead v = true → ltb.isHead v = true ∨ v ∈ nodes

/-- A loop inside a loop leaves out the heads. -/
theorem length_lt_of_cyclic {nodes heads starts scc : List CFNodeId} {isHead : CFNodeId → Bool}
    (level : Level cfg nodes heads starts isHead) (nodup : scc.Nodup)
    (inside : ∀ v ∈ scc, v ∈ nodes)
    (component : IsComponent (WalkEdge cfg isHead) (· ∈ scc))
    (cyclic : ∃ v ∈ scc, Relation.TransGen (WalkEdge cfg isHead) v v)
    {h : CFNodeId} (isHeadH : h ∈ heads) : scc.length < nodes.length := by
  have blocked : isHead h = true := (level.inner h (level.heads_nodes h isHeadH)).mpr isHeadH
  have outside : h ∉ scc := by
    intro member
    obtain ⟨v, memberV, cycle⟩ := cyclic
    have both := (component v memberV h).mpr member
    have toH : Relation.TransGen (WalkEdge cfg isHead) v h := cycle.trans_left both.1
    obtain ⟨p, -, follows⟩ := Relation.TransGen.tail'_iff.mp toH
    simp [follows.2] at blocked
  have sub : (h :: scc).Subperm nodes := by
    apply List.subperm_of_subset (List.nodup_cons.mpr ⟨outside, nodup⟩)
    intro v member
    rcases List.mem_cons.mp member with rfl | inScc
    · exact level.heads_nodes v isHeadH
    · exact inside v inScc
  exact sub.length_le

/-- The loop over the children of a level. -/
theorem finishChildren_spec (wellFormed : cfg.WellFormed)
    (reachable : ∀ v ∈ cfg.contents, Reachable cfg.Edge cfg.entry v)
    {fuel depth : Nat} {nodes heads starts : List CFNodeId} {isHead : CFNodeId → Bool}
    (level : Level cfg nodes heads starts isHead) {walked : LoopTreeBuilder}
    {sccs : List (List CFNodeId)} (visits : Visits cfg nodes heads starts isHead walked sccs)
    {recurse : List CFNodeId → LoopTreeBuilder → Except CfgError (List LTNode × LoopTreeBuilder)}
    (spec : RecurseSpec cfg fuel recurse)
    (small : ∀ scc ∈ sccs, (childOf cfg isHead scc).type = .head → scc.length ≤ fuel)
    (rest : List (List CFNodeId)) :
    ∀ before trees ltb, sccs = before ++ rest → ltb.Marked → ltb.stack = [] →
      (∀ v, walked.isHead v = true → ltb.isHead v = true) →
      (∀ v, ltb.isHead v = true → walked.isHead v = true ∨ v ∈ before.flatten) →
      List.Forall₂ (StandsFor cfg isHead) before trees →
      ∃ all after, (rest.map (childOf cfg isHead)).foldlM (finishChild recurse depth)
          (trees, ltb) = .ok (all, after) ∧
        after.Marked ∧ after.stack = [] ∧
        (∀ v, walked.isHead v = true → after.isHead v = true) ∧
        (∀ v, after.isHead v = true → walked.isHead v = true ∨ v ∈ sccs.flatten) ∧
        List.Forall₂ (StandsFor cfg isHead) sccs all := by
  induction rest with
  | nil =>
      intro before trees ltb split marked bare kept only stand
      rw [List.append_nil] at split
      subst split
      exact ⟨trees, ltb, rfl, marked, bare, kept, only, stand⟩
  | cons scc rest ih =>
      intro before trees ltb split marked bare kept only stand
      have listed : scc ∈ sccs := split ▸ List.mem_append_right _ List.mem_cons_self
      have nodup : scc.Nodup := (List.nodup_flatten.mp visits.disjoint).1 scc listed
      have inside : ∀ v ∈ scc, v ∈ nodes := fun v member =>
        visits.inside v (List.mem_flatten.mpr ⟨scc, listed, member⟩)
      -- one child, a leaf or a loop
      obtain ⟨tree, middle, ran, middleMarked, middleBare, grows, within, stands⟩ :
          ∃ tree middle, finishChild recurse depth (trees, ltb) (childOf cfg isHead scc) =
              .ok (trees ++ [tree], middle) ∧ middle.Marked ∧ middle.stack = [] ∧
            (∀ v, ltb.isHead v = true → middle.isHead v = true) ∧
            (∀ v, middle.isHead v = true → ltb.isHead v = true ∨ v ∈ scc) ∧
            StandsFor cfg isHead scc tree := by
        cases type : (childOf cfg isHead scc).type with
        | leaf =>
            obtain ⟨n, rfl, cfNodes⟩ := childOf_leaf wellFormed reachable
              (fun v member => level.inside v (inside v member)) type
            refine ⟨.leaf depth [n], ltb, ?_, marked, bare, fun _ => id, fun _ => Or.inl, ?_⟩
            · simp only [finishChild, type, cfNodes]
            · exact
                { exact := .leaf depth n
                  type := type.symm
                  cfNodes := cfNodes.symm
                  nodup := by simp [LTNode.nodes]
                  nodes := by simp [LTNode.nodes] }
        | head =>
            have next := visits.next wellFormed reachable level split kept only
            have someHead : (childOf cfg isHead scc).cfNodes ≠ [] := by
              obtain ⟨v, member⟩ := List.exists_mem_of_ne_nil _ (visits.nonempty scc listed)
              obtain ⟨s, start, -⟩ := next.covers v member
              exact List.ne_nil_of_mem start
            obtain ⟨below, after, ran, exact, exactLevel, members, afterMarked, afterBare,
              grows, within⟩ := spec scc _ _ ltb next marked bare
                (Or.inl ⟨someHead, small scc listed type⟩)
            refine ⟨.head depth (childOf cfg isHead scc).cfNodes below, after, ?_, afterMarked,
              afterBare, grows, within, ?_⟩
            · simp only [finishChild, type, ran]
              rfl
            · exact
                { exact := .head depth exact exactLevel
                  type := type.symm
                  cfNodes := rfl
                  nodup := exactLevel.once
                  nodes := members }
      obtain ⟨all, after, ranRest, result⟩ := ih (before ++ [scc]) (trees ++ [tree]) middle
        (by simpa using split) middleMarked middleBare
        (fun v marked => grows v (kept v marked)) (by
          intro v marked
          rw [List.flatten_append, List.mem_append, List.flatten_singleton]
          rcases within v marked with earlier | inScc
          · rcases only v earlier with final | inBefore
            · exact Or.inl final
            · exact Or.inr (Or.inl inBefore)
          · exact Or.inr (Or.inr inScc))
        (List.rel_append stand (List.Forall₂.cons stands List.Forall₂.nil))
      refine ⟨all, after, ?_, result⟩
      rw [List.map_cons, List.foldlM_cons, ran]
      exact ranRest

theorem recurse_spec (wellFormed : cfg.WellFormed)
    (reachable : ∀ v ∈ cfg.contents, Reachable cfg.Edge cfg.entry v) (fuel : Nat) :
    ∀ depth, RecurseSpec cfg fuel (recurse cfg fuel depth) := by
  induction fuel with
  | zero =>
      intro depth nodes heads starts ltb level _ _ enough
      rcases enough with ⟨someHead, empty⟩ | impossible
      · obtain ⟨h, isHeadH⟩ := List.exists_mem_of_ne_nil _ someHead
        have member := level.heads_nodes h isHeadH
        simp [List.length_eq_zero_iff.mp (Nat.le_zero.mp empty)] at member
      · omega
  | succ fuel ih =>
      intro depth nodes heads starts ltb level marked bare enough
      have begin : Visits cfg nodes heads [] ltb.isHead { ltb with children := [] } [] :=
        { marked := marked
          bare := bare
          children := rfl
          marks := by simp
          nonempty := by simp
          component := by simp
          disjoint := by simp
          inside := by simp
          closed := by simp
          starts := by simp
          headsDone := by simp
          begun := by simp }
      obtain ⟨walked, sccs, ranWalks, visits⟩ :=
        walkHeads_spec wellFormed reachable level starts [] _ [] rfl begin
      have nodupScc : ∀ scc ∈ sccs, scc.Nodup := (List.nodup_flatten.mp visits.disjoint).1
      have insideScc : ∀ scc ∈ sccs, ∀ v ∈ scc, v ∈ nodes := fun scc listed v member =>
        visits.inside v (List.mem_flatten.mpr ⟨scc, listed, member⟩)
      have small : ∀ scc ∈ sccs, (childOf cfg ltb.isHead scc).type = .head →
          scc.length ≤ fuel := by
        intro scc listed isLoop
        have component := visits.component scc listed
        have cyclic := (childOf_head_iff (nodupScc scc listed) component
          (visits.nonempty scc listed)).mp isLoop
        rcases enough with ⟨someHead, bound⟩ | bound
        · obtain ⟨h, isHeadH⟩ := List.exists_mem_of_ne_nil _ someHead
          have := length_lt_of_cyclic level (nodupScc scc listed) (insideScc scc listed)
            component cyclic isHeadH
          omega
        · have := (List.subperm_of_subset (nodupScc scc listed) (insideScc scc listed)).length_le
          omega
      obtain ⟨trees, after, ranChildren, afterMarked, afterBare, kept, only, stand⟩ :=
        finishChildren_spec wellFormed reachable level visits (ih (depth + 1))
          small sccs [] [] walked rfl visits.marked visits.bare (fun _ => id) (by simp)
          List.Forall₂.nil
      obtain ⟨exactLevel, members⟩ := exactLevel_of_visits wellFormed level visits stand
      refine ⟨trees, after, ?_, ?_, exactLevel, members, afterMarked, afterBare, ?_, ?_⟩
      · unfold recurse
        rw [ranWalks]
        simp only [bind, Except.bind, visits.children]
        exact ranChildren
      · intro tree listed
        obtain ⟨scc, -, stands⟩ := standsFor_of_mem_right stand tree listed
        exact stands.exact
      · exact fun v blocked => kept v ((visits.marks v).mpr (Or.inl blocked))
      · intro v blocked
        rcases only v blocked with final | inside
        · rcases (visits.marks v).mp final with old | ⟨scc, listed, member, -⟩
          · exact Or.inl old
          · exact Or.inr (insideScc scc listed v member)
        · exact Or.inr (visits.inside v inside)

end Recursion

/-! ## The map -/

/-- The entries of the map for leaves that have one node each. -/
def leafEntries (leaves : List LTLeaf) : List (AbsId × LTLeaf) :=
  leaves.filterMap fun l => match l.cfNodes with
    | [some node] => some (node, l)
    | _ => none

/-- All leaves of exact trees have exactly one node, which is not the virtual entry. -/
def RealLeaves (leaves : List LTLeaf) : Prop :=
  ∀ l ∈ leaves, ∃ node : AbsId, l.cfNodes = [some node]

theorem leafEntries_append (left right : List LTLeaf) :
    leafEntries (left ++ right) = leafEntries left ++ leafEntries right := by
  simp [leafEntries]

mutual
theorem buildMapRecursive_eq (parents : List (List CFNodeId)) (map : List (AbsId × LTLeaf)) :
    (tree : LTNode) → RealLeaves (tree.leaves parents) →
      buildMapRecursive parents map tree =
        .ok ((leafEntries (tree.leaves parents)).reverse ++ map)
  | .leaf depth cfNodes, real => by
      obtain ⟨node, one⟩ := real ⟨cfNodes, parents⟩ (by simp [LTNode.leaves])
      simp only at one
      subst one
      simp [buildMapRecursive, LTNode.leaves, leafEntries]
  | .head depth cfNodes children, real => by
      rw [buildMapRecursive, LTNode.leaves]
      exact buildMapChildren_eq (cfNodes :: parents) map children real

theorem buildMapChildren_eq (parents : List (List CFNodeId)) (map : List (AbsId × LTLeaf)) :
    (children : List LTNode) → RealLeaves (leavesOfChildren parents children) →
      buildMapChildren parents map children =
        .ok ((leafEntries (leavesOfChildren parents children)).reverse ++ map)
  | [], _ => by simp [buildMapChildren, leavesOfChildren, leafEntries]
  | child :: children, real => by
      have first := buildMapRecursive_eq parents map child
        fun l member => real l (List.mem_append_left _ member)
      rw [buildMapChildren, first]
      simp only
      rw [buildMapChildren_eq parents _ children
        fun l member => real l (List.mem_append_right _ member)]
      simp [leavesOfChildren, leafEntries_append]
end

mutual
theorem leaves_nodes (parents : List (List CFNodeId)) : (tree : LTNode) →
    (tree.leaves parents).flatMap (·.cfNodes) = tree.nodes
  | .leaf depth cfNodes => by simp [LTNode.leaves, LTNode.nodes]
  | .head depth cfNodes children => by
      rw [LTNode.leaves, LTNode.nodes]
      exact leavesOfChildren_nodes (cfNodes :: parents) children

theorem leavesOfChildren_nodes (parents : List (List CFNodeId)) : (children : List LTNode) →
    (leavesOfChildren parents children).flatMap (·.cfNodes) = nodesOfChildren children
  | [] => by simp [leavesOfChildren, nodesOfChildren]
  | child :: children => by
      rw [leavesOfChildren, nodesOfChildren, List.flatMap_append, leaves_nodes parents child,
        leavesOfChildren_nodes parents children]
end

mutual
/-- The virtual entry has no `node` to be hashed. -/
theorem buildMapRecursive_null (parents : List (List CFNodeId)) (map : List (AbsId × LTLeaf)) :
    (tree : LTNode) → (∀ l ∈ tree.leaves parents, ∃ n, l.cfNodes = [n]) →
      none ∈ tree.nodes → buildMapRecursive parents map tree = .error .nullPointer
  | .leaf depth cfNodes, single, virtual => by
      obtain ⟨n, one⟩ := single ⟨cfNodes, parents⟩ (by simp [LTNode.leaves])
      simp only at one
      subst one
      obtain rfl : none = n := by simpa [LTNode.nodes] using virtual
      rfl
  | .head depth cfNodes children, single, virtual => by
      rw [buildMapRecursive]
      exact buildMapChildren_null (cfNodes :: parents) map children single virtual

theorem buildMapChildren_null (parents : List (List CFNodeId)) (map : List (AbsId × LTLeaf)) :
    (children : List LTNode) →
      (∀ l ∈ leavesOfChildren parents children, ∃ n, l.cfNodes = [n]) →
      none ∈ nodesOfChildren children → buildMapChildren parents map children = .error .nullPointer
  | [], _, virtual => by simp [nodesOfChildren] at virtual
  | child :: children, single, virtual => by
      have singleChild : ∀ l ∈ child.leaves parents, ∃ n, l.cfNodes = [n] :=
        fun l member => single l (List.mem_append_left _ member)
      rw [buildMapChildren]
      by_cases first : none ∈ child.nodes
      · rw [buildMapRecursive_null parents map child singleChild first]
      · have realChild : RealLeaves (child.leaves parents) := by
          intro l member
          obtain ⟨n, one⟩ := singleChild l member
          cases n with
          | some node => exact ⟨node, one⟩
          | none =>
              refine absurd ?_ first
              rw [← leaves_nodes parents child]
              exact List.mem_flatMap.mpr ⟨l, member, one ▸ List.mem_cons_self⟩
        rw [buildMapRecursive_eq parents map child realChild]
        apply buildMapChildren_null parents _ children
        · exact fun l member => single l (List.mem_append_right _ member)
        · rw [nodesOfChildren, List.mem_append] at virtual
          exact virtual.resolve_left first
end

theorem mem_leavesOfChildren (parents : List (List CFNodeId)) (children : List LTNode)
    (l : LTLeaf) : l ∈ leavesOfChildren parents children ↔
      ∃ child ∈ children, l ∈ child.leaves parents := by
  induction children with
  | nil => simp [leavesOfChildren]
  | cons child children ih => simp [leavesOfChildren, ih]

theorem LTNode.Exact.single {cfg : CFG} {tree : LTNode} (exact : tree.Exact cfg) :
    ∀ parents, ∀ l ∈ tree.leaves parents, ∃ n, l.cfNodes = [n] := by
  induction exact with
  | leaf depth n =>
      intro parents l member
      simp only [LTNode.leaves, List.mem_singleton] at member
      exact ⟨n, by rw [member]⟩
  | @head depth heads children _ _ ih =>
      intro parents l member
      rw [LTNode.leaves, mem_leavesOfChildren] at member
      obtain ⟨child, listed, inChild⟩ := member
      exact ih child listed _ l inChild

theorem lookup_of_mem {entries : List (AbsId × LTLeaf)} (once : (entries.map (·.1)).Nodup)
    {node : AbsId} {l : LTLeaf} (member : (node, l) ∈ entries) :
    entries.lookup node = some l := by
  induction entries with
  | nil => simp at member
  | cons first rest ih =>
      rw [List.map_cons, List.nodup_cons] at once
      rcases List.mem_cons.mp member with rfl | later
      · simp
      · have other : node ≠ first.1 := by
          intro same
          exact once.1 (same ▸ List.mem_map.mpr ⟨(node, l), later, rfl⟩)
        have apart : (node == first.1) = false := by simpa using other
        rw [List.lookup_cons, apart]
        exact ih once.2 later

theorem leafEntries_sublist (leaves : List LTLeaf) :
    ((leafEntries leaves).map fun entry => some entry.1).Sublist (leaves.flatMap (·.cfNodes)) := by
  induction leaves with
  | nil => simp [leafEntries]
  | cons l leaves ih =>
      have split : leafEntries (l :: leaves) = leafEntries [l] ++ leafEntries leaves :=
        leafEntries_append [l] leaves
      rw [split, List.map_append, List.flatMap_cons]
      apply List.Sublist.append _ ih
      unfold leafEntries
      cases own : l.cfNodes with
      | nil => simp [own]
      | cons n rest =>
          cases n with
          | none => simp [own]
          | some node =>
              cases rest with
              | nil => simp [own]
              | cons m rest => simp [own]

/-- A node has one entry in the map, its own leaf. -/
theorem lookup_leafEntries (leaves : List LTLeaf) {node : AbsId} {l : LTLeaf}
    (member : l ∈ leaves) (own : l.cfNodes = [some node])
    (once : (leaves.flatMap (·.cfNodes)).Nodup) :
    (leafEntries leaves).reverse.lookup node = some l := by
  apply lookup_of_mem
  · rw [List.map_reverse, List.nodup_reverse]
    have somes := (leafEntries_sublist leaves).nodup once
    apply List.Nodup.of_map some
    rw [List.map_map]
    exact somes
  · simp only [leafEntries, List.mem_reverse, List.mem_filterMap]
    exact ⟨l, member, by rw [own]⟩

/-! ## The whole tree -/

/-- The root is the level of all nodes, without heads, and the walk begins at the entry. -/
theorem root_level {cfg : CFG} (wellFormed : cfg.WellFormed)
    (reachable : ∀ v ∈ cfg.contents, Reachable cfg.Edge cfg.entry v) :
    Level cfg cfg.contents [] [cfg.entry] LoopTreeBuilder.initial.isHead where
  nodup := wellFormed.nodup
  inside := fun _ member => member
  exits := fun p _ v taken outside => absurd (wellFormed.edge_mem taken).2 outside
  inner := by simp [LoopTreeBuilder.initial]
  heads_nodes := by simp
  heads_entered := by simp
  starts_nodup := by simp
  starts_nodes := by simpa using wellFormed.entry_mem
  starts_heads := by simp
  covers := by
    intro v inside
    refine ⟨cfg.entry, List.mem_cons_self, ?_⟩
    have path := (reachable_iff_reflTransGen v).mp (reachable v inside)
    exact Relation.ReflTransGen.mono (fun p w taken => ⟨taken, rfl⟩) _ _ path

/-- A loop tree that is exact at every level, with every node of the graph as one leaf,
which the map leads to. -/
def LoopTree.Exact (cfg : CFG) (lt : LoopTree) : Prop :=
  (∃ children, lt.root = .head 0 [] children) ∧ lt.root.Exact cfg ∧
    lt.root.nodes.Perm cfg.contents ∧
    ∀ node : AbsId, some node ∈ cfg.contents → ∃ l ∈ lt.root.leaves [],
      l.cfNodes = [some node] ∧ loopTreeLookup lt node = .ok l

/-- The levels are built for every graph, with or without a virtual entry. -/
theorem recurse_root {cfg : CFG} (wellFormed : cfg.WellFormed)
    (reachable : ∀ v ∈ cfg.contents, Reachable cfg.Edge cfg.entry v) :
    ∃ children after, recurse cfg (cfg.size + 1) 1 [cfg.entry] .initial = .ok (children, after) ∧
      (LTNode.head 0 [] children).Exact cfg ∧
      (LTNode.head 0 [] children).nodes.Perm cfg.contents := by
  have noneMarked : LoopTreeBuilder.initial.Marked := by
    intro v
    simp [LoopTreeBuilder.initial]
  obtain ⟨children, after, ran, below, level, members, -⟩ :=
    recurse_spec wellFormed reachable (cfg.size + 1) 1 cfg.contents [] [cfg.entry]
      LoopTreeBuilder.initial (root_level wellFormed reachable) noneMarked rfl
      (Or.inr (Nat.lt_succ_self _))
  refine ⟨children, after, ran, .head 0 below level, ?_⟩
  rw [LTNode.nodes]
  exact (List.perm_ext_iff_of_nodup level.once wellFormed.nodup).mpr members

/-- On every graph without a virtual entry the loop tree is built and exact. -/
theorem newLoopTree_exact {cfg : CFG} (wellFormed : cfg.WellFormed)
    (reachable : ∀ v ∈ cfg.contents, Reachable cfg.Edge cfg.entry v)
    (real : none ∉ cfg.contents) : ∃ lt, newLoopTree cfg = .ok lt ∧ lt.Exact cfg := by
  obtain ⟨children, after, ran, exact, nodes⟩ := recurse_root wellFormed reachable
  have once : ((LTNode.head 0 [] children).leaves []).flatMap (·.cfNodes) =
      (LTNode.head 0 [] children).nodes := leaves_nodes [] _
  have ofLeaf : ∀ l ∈ (LTNode.head 0 [] children).leaves [], ∀ n ∈ l.cfNodes,
      n ∈ cfg.contents := by
    intro l listed n member
    rw [← nodes.mem_iff, ← once]
    exact List.mem_flatMap.mpr ⟨l, listed, member⟩
  have realLeaves : RealLeaves ((LTNode.head 0 [] children).leaves []) := by
    intro l listed
    obtain ⟨n, own⟩ := exact.single [] l listed
    cases n with
    | none => exact absurd (ofLeaf l listed none (own ▸ List.mem_cons_self)) real
    | some node => exact ⟨node, own⟩
  have built := buildMapRecursive_eq [] [] (LTNode.head 0 [] children) realLeaves
  refine ⟨⟨.head 0 [] children,
    (leafEntries ((LTNode.head 0 [] children).leaves [])).reverse⟩, ?_,
    ⟨children, rfl⟩, exact, nodes, ?_⟩
  · unfold newLoopTree
    rw [ran]
    simp only [bind, Except.bind, built, List.append_nil]
    rfl
  · intro node inside
    rw [← nodes.mem_iff, ← once] at inside
    obtain ⟨l, listed, member⟩ := List.mem_flatMap.mp inside
    obtain ⟨n, own⟩ := exact.single [] l listed
    rw [own, List.mem_singleton] at member
    subst member
    refine ⟨l, listed, own, ?_⟩
    have found := lookup_leafEntries _ listed own (once ▸ nodes.nodup_iff.mpr wellFormed.nodup)
    simp only [loopTreeLookup, found]

/-- A virtual entry is a node of the tree like any other, but has no place in the map. -/
theorem newLoopTree_null {cfg : CFG} (wellFormed : cfg.WellFormed)
    (reachable : ∀ v ∈ cfg.contents, Reachable cfg.Edge cfg.entry v)
    (virtual : none ∈ cfg.contents) : newLoopTree cfg = .error .nullPointer := by
  obtain ⟨children, after, ran, exact, nodes⟩ := recurse_root wellFormed reachable
  have failed := buildMapRecursive_null [] [] _ (exact.single []) (nodes.mem_iff.mpr virtual)
  unfold newLoopTree
  rw [ran]
  simp only [bind, Except.bind, failed]

/-- The loop tree of every graph that `shd_new_cfg` makes without a virtual entry. -/
theorem loopTree_exact_of_newCfg (function : Function) (entry : AbsId) (config : CFGBuildConfig)
    (result : AnalysedCFG) (analysed : newCfg function entry config = .ok result)
    (real : none ∉ result.cfg.contents) :
    ∃ lt, newLoopTree result.cfg = .ok lt ∧ lt.Exact result.cfg :=
  newLoopTree_exact (newCfg_spec analysed).1 (newCfg_spec analysed).2 real

/-- Two blocks that jump to each other, both entered from outside, and a block that
jumps to itself inside their loop. -/
def twoHeads : Function := ⟨0, [
  (0, ⟨true, [], some (.branch ⟨1, []⟩ ⟨2, []⟩)⟩),
  (1, ⟨false, [], some (.branch ⟨2, []⟩ ⟨3, []⟩)⟩),
  (2, ⟨false, [], some (.branch ⟨1, []⟩ ⟨4, []⟩)⟩),
  (3, ⟨false, [], some (.branch ⟨3, []⟩ ⟨1, []⟩)⟩),
  (4, ⟨false, [], some .fnRet⟩)]⟩

theorem twoHeads_loopTree_exact : ∃ result lt,
    newCfg twoHeads 0 defaultForwardCfgBuild = .ok result ∧
      newLoopTree result.cfg = .ok lt ∧ lt.Exact result.cfg := by
  have summary : (newCfg twoHeads 0 defaultForwardCfgBuild).map (fun result =>
      decide (none ∈ result.cfg.contents)) = .ok false := by decide
  cases analysed : newCfg twoHeads 0 defaultForwardCfgBuild with
  | error e => simp [analysed, Except.map] at summary
  | ok result =>
      have real : none ∉ result.cfg.contents := by
        simpa [analysed, Except.map] using summary
      obtain ⟨lt, built, exact⟩ :=
        loopTree_exact_of_newCfg twoHeads 0 defaultForwardCfgBuild result analysed real
      exact ⟨result, lt, rfl, built, exact⟩

/-- The flipped graph of a function with two returns has a virtual entry, whose NULL
`node` is hashed for the map. -/
theorem virtual_entry_breaks_map : ∃ result,
    newCfg twoReturns 0 flippedCfgBuild = .ok result ∧
      newLoopTree result.cfg = .error .nullPointer := by
  have summary : (newCfg twoReturns 0 flippedCfgBuild).map (fun result =>
      decide (none ∈ result.cfg.contents)) = .ok true := by decide
  cases analysed : newCfg twoReturns 0 flippedCfgBuild with
  | error e => simp [analysed, Except.map] at summary
  | ok result =>
      have virtual : none ∈ result.cfg.contents := by
        simpa [analysed, Except.map] using summary
      have spec := newCfg_spec analysed
      exact ⟨result, rfl, newLoopTree_null spec.1 spec.2 virtual⟩

end Shady
