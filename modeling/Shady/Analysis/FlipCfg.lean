import Shady.Analysis.DomtreeExact

/-!
# Flipped graphs and post-dominance

`flip_cfg` turns every edge around and looks for the nodes that have no
predecessor any more, the exits of the forward graph. The first one becomes the
entry; a second one brings in a virtual entry. The analysis of the result ends
with the post-dominator tree if and only if every node reaches an exit.
-/

set_option autoImplicit false

namespace Shady
open Dominance Fallible

/-- The nodes that lead nowhere. -/
def exits (cfg : CFG) (nodes : List CFNodeId) : List CFNodeId :=
  nodes.filter fun n => cfg.succEdges n = []

/-- A path to an exit, with its nodes in order. -/
inductive ExitPath (cfg : CFG) : CFNodeId → List CFNodeId → Prop
  | exit {n : CFNodeId} (inside : n ∈ cfg.contents) (last : cfg.succEdges n = []) :
      ExitPath cfg n [n]
  | step {n m : CFNodeId} {visited : List CFNodeId} (taken : cfg.Edge n m)
      (rest : ExitPath cfg m visited) : ExitPath cfg n (n :: visited)

/-- Every path from `n` to an exit goes through `d`. -/
def PostDominates (cfg : CFG) (d n : CFNodeId) : Prop :=
  ∀ visited, ExitPath cfg n visited → d ∈ visited

def StrictlyPostDominates (cfg : CFG) (d n : CFNodeId) : Prop := PostDominates cfg d n ∧ d ≠ n

def EveryNodeReachesExit (cfg : CFG) : Prop :=
  ∀ n ∈ cfg.contents, ∃ visited, ExitPath cfg n visited

/-- The graph with its edges turned around and, if there are several exits, a virtual
entry that leads to all of them. -/
structure Flipped (cfg flipped : CFG) : Prop where
  succ : ∀ n ∈ cfg.contents, flipped.succEdges n = (cfg.predEdges n).map CFEdge.flip
  pred : ∀ n ∈ cfg.contents, flipped.predEdges n = (cfg.succEdges n).map CFEdge.flip ++
    if 2 ≤ (exits cfg cfg.contents).length ∧ n ∈ exits cfg cfg.contents then [virtualEdge n]
    else []
  virtual : flipped.predEdges none = [] ∧ flipped.succEdges none =
    if 2 ≤ (exits cfg cfg.contents).length then (exits cfg cfg.contents).map virtualEdge else []
  entry : (2 ≤ (exits cfg cfg.contents).length ∧ flipped.entry = none ∧
      flipped.contents = cfg.contents ++ [none]) ∨
    (exits cfg cfg.contents = [flipped.entry] ∧ flipped.contents = cfg.contents)

/-- The parents are the immediate post-dominators, the virtual entry where there is
none, and dominance queries answer for post-dominance. -/
def Domtree.PostExact (cfg flipped : CFG) (tree : Domtree) : Prop :=
  (∀ n ∈ cfg.contents, n ≠ flipped.entry → ∃ d, tree.idom n = some d ∧
    (d ≠ none → StrictlyPostDominates cfg d n ∧
      ∀ other ∈ cfg.contents, StrictlyPostDominates cfg other n → PostDominates cfg other d) ∧
    (d = none → ∀ other ∈ cfg.contents, ¬ StrictlyPostDominates cfg other n)) ∧
  ∀ a ∈ cfg.contents, ∀ b ∈ cfg.contents, ∃ answer, isDominated flipped tree a b = .ok answer ∧
    (answer = true ↔ PostDominates cfg b a)

/-! ## The loop of `flip_cfg` -/

/-- The entry after the nodes seen so far, given the exits among them. -/
def flipEntry : List CFNodeId → Option CFNodeId
  | [] => none
  | [exit] => some exit
  | _ => some none

/-- The state of the loop after the nodes `done`. -/
structure FlipsTo (cfg : CFG) (done : List CFNodeId) (state : FlipState) : Prop where
  entry : state.entry = flipEntry (exits cfg done)
  succ : ∀ n, n ≠ none → state.succEdges n =
    if n ∈ done then (cfg.predEdges n).map CFEdge.flip else cfg.succEdges n
  pred : ∀ n, n ≠ none → state.predEdges n =
    if n ∈ done then (cfg.succEdges n).map CFEdge.flip ++
      (if 2 ≤ (exits cfg done).length ∧ n ∈ exits cfg done then [virtualEdge n] else [])
    else cfg.predEdges n
  virtualSucc : state.succEdges none =
    if 2 ≤ (exits cfg done).length then (exits cfg done).map virtualEdge else []
  virtualPred : state.predEdges none = []

section Flip
variable {cfg : CFG}

theorem exits_append (done : List CFNodeId) (n : CFNodeId) :
    exits cfg (done ++ [n]) = exits cfg done ++ if cfg.succEdges n = [] then [n] else [] := by
  unfold exits
  rw [List.filter_append]
  congr 1
  by_cases last : cfg.succEdges n = [] <;> simp [last]

theorem mem_exits (nodes : List CFNodeId) (n : CFNodeId) :
    n ∈ exits cfg nodes ↔ n ∈ nodes ∧ cfg.succEdges n = [] := by
  simp [exits]

theorem flipEdges_spec {done : List CFNodeId} {state : FlipState}
    (before : FlipsTo cfg done state) {n : CFNodeId} (real : n ≠ none) (fresh : n ∉ done) :
    (state.flipEdges n).entry = state.entry ∧
      (∀ v, (state.flipEdges n).succEdges v =
        if v = n then (cfg.predEdges n).map CFEdge.flip else state.succEdges v) ∧
      ∀ v, (state.flipEdges n).predEdges v =
        if v = n then (cfg.succEdges n).map CFEdge.flip else state.predEdges v := by
  have succN := before.succ n real
  have predN := before.pred n real
  rw [if_neg fresh] at succN predN
  refine ⟨rfl, fun v => ?_, fun v => ?_⟩
  · by_cases same : v = n
    · simp [FlipState.flipEdges, same, predN]
    · simp [FlipState.flipEdges, same]
  · by_cases same : v = n
    · simp [FlipState.flipEdges, same, succN]
    · simp [FlipState.flipEdges, same]

/-- A node that is no exit only has its edges flipped. -/
theorem flipNode_inner {done : List CFNodeId} {state : FlipState}
    (before : FlipsTo cfg done state) {n : CFNodeId} (real : n ≠ none) (fresh : n ∉ done)
    (inner : cfg.succEdges n ≠ []) : FlipsTo cfg (done ++ [n]) (flipNode state n) := by
  obtain ⟨entry, succ, pred⟩ := flipEdges_spec before real fresh
  have same : exits cfg (done ++ [n]) = exits cfg done := by simp [exits_append, inner]
  have result : flipNode state n = state.flipEdges n := by
    unfold flipNode
    rw [if_neg]
    simpa [pred n] using inner
  have notExit : n ∉ exits cfg done := fun member => fresh ((mem_exits done n).mp member).1
  rw [result]
  exact
    { entry := by rw [same, entry, before.entry]
      succ := by
        intro v realV
        rw [succ v, before.succ v realV]
        by_cases isN : v = n <;> simp [isN]
      pred := by
        intro v realV
        rw [same, pred v, before.pred v realV]
        by_cases isN : v = n
        · simp [isN, notExit]
        · simp [isN]
      virtualSucc := by rw [same, succ none, if_neg (Ne.symm real), before.virtualSucc]
      virtualPred := by rw [pred none, if_neg (Ne.symm real), before.virtualPred] }

/-- An exit becomes the entry, or an edge leads to it from the virtual entry. -/
theorem flipNode_exit {done : List CFNodeId} {state : FlipState}
    (before : FlipsTo cfg done state) (realDone : ∀ v ∈ done, v ≠ none) {n : CFNodeId}
    (real : n ≠ none) (fresh : n ∉ done) (last : cfg.succEdges n = []) :
    FlipsTo cfg (done ++ [n]) (flipNode state n) := by
  obtain ⟨entry, succ, pred⟩ := flipEdges_spec before real fresh
  have grown : exits cfg (done ++ [n]) = exits cfg done ++ [n] := by simp [exits_append, last]
  have noPred : (state.flipEdges n).predEdges n = [] := by simp [pred n, last]
  have notExit : n ∉ exits cfg done := fun member => fresh ((mem_exits done n).mp member).1
  have succV := before.succ
  have predV := before.pred
  have entryBefore := before.entry
  have virtualSucc := before.virtualSucc
  cases known : exits cfg done with
  | nil =>
      rw [known] at entryBefore grown
      have result : flipNode state n = { state.flipEdges n with entry := some n } := by
        simp [flipNode, noPred, entry, entryBefore, flipEntry]
      rw [result]
      exact
        { entry := by simp [grown, flipEntry]
          succ := by
            intro v realV
            simp only [succ v, succV v realV]
            by_cases isN : v = n <;> simp [isN]
          pred := by
            intro v realV
            simp only [pred v, predV v realV, grown, known]
            by_cases isN : v = n <;> simp [isN]
          virtualSucc := by
            simp [succ none, Ne.symm real, virtualSucc, known, grown]
          virtualPred := by simp [pred none, Ne.symm real, before.virtualPred] }
  | cons first more =>
      have realFirst : first ≠ none :=
        realDone first ((mem_exits done first).mp (known ▸ List.mem_cons_self)).1
      rw [known] at grown virtualSucc entryBefore notExit
      have differs : first ≠ n := by
        rintro rfl
        exact notExit List.mem_cons_self
      cases more with
      | nil =>
          obtain ⟨prevEntry, rfl⟩ := Option.ne_none_iff_exists'.mp realFirst
          have result : flipNode state n = { ((state.flipEdges n).addVirtualEdge
              (some prevEntry)).addVirtualEdge n with entry := some none } := by
            simp [flipNode, noPred, entry, entryBefore, flipEntry]
          rw [result]
          exact
            { entry := by simp [grown, flipEntry]
              succ := by
                intro v realV
                simp only [FlipState.addVirtualEdge, appendAt, realV, if_false, succ v,
                  succV v realV]
                by_cases isN : v = n <;> simp [isN]
              pred := by
                intro v realV
                simp only [FlipState.addVirtualEdge, appendAt, pred v, predV v realV, grown, known]
                by_cases isN : v = n
                · subst isN
                  simp [last, Ne.symm differs]
                · by_cases isFirst : v = some prevEntry
                  · subst isFirst
                    have listed : some prevEntry ∈ done :=
                      ((mem_exits done _).mp (known ▸ List.mem_cons_self)).1
                    simp [isN, listed]
                  · simp [isN, isFirst]
              virtualSucc := by
                simp [FlipState.addVirtualEdge, appendAt, succ none, Ne.symm real, virtualSucc,
                  grown]
              virtualPred := by
                simp [FlipState.addVirtualEdge, appendAt, pred none, Ne.symm real,
                  before.virtualPred] }
      | cons second more =>
          have result : flipNode state n = (state.flipEdges n).addVirtualEdge n := by
            simp [flipNode, noPred, entry, entryBefore, flipEntry]
          rw [result]
          exact
            { entry := by simp [grown, flipEntry, FlipState.addVirtualEdge, entry, entryBefore]
              succ := by
                intro v realV
                simp only [FlipState.addVirtualEdge, appendAt, realV, if_false, succ v,
                  succV v realV]
                by_cases isN : v = n <;> simp [isN]
              pred := by
                intro v realV
                simp only [FlipState.addVirtualEdge, appendAt, pred v, predV v realV, grown, known]
                by_cases isN : v = n
                · subst isN
                  simp [last]
                · simp [isN]
              virtualSucc := by
                simp [FlipState.addVirtualEdge, appendAt, succ none, Ne.symm real, virtualSucc,
                  grown]
              virtualPred := by
                simp [FlipState.addVirtualEdge, appendAt, pred none, Ne.symm real,
                  before.virtualPred] }

theorem foldl_flipNode_spec (nodes : List CFNodeId) :
    ∀ (done : List CFNodeId) (state : FlipState), FlipsTo cfg done state →
      (∀ v ∈ done ++ nodes, v ≠ none) → (done ++ nodes).Nodup →
      FlipsTo cfg (done ++ nodes) (nodes.foldl flipNode state) := by
  induction nodes with
  | nil => intro done state before _ _; simpa using before
  | cons n nodes ih =>
      intro done state before real nodup
      have fresh : n ∉ done := by
        intro member
        exact (List.disjoint_of_nodup_append nodup) member List.mem_cons_self
      have realN : n ≠ none := real n (by simp)
      have realDone : ∀ v ∈ done, v ≠ none := fun v member => real v (by simp [member])
      have next : FlipsTo cfg (done ++ [n]) (flipNode state n) := by
        by_cases last : cfg.succEdges n = []
        · exact flipNode_exit before realDone realN fresh last
        · exact flipNode_inner before realN fresh last
      simpa using ih (done ++ [n]) (flipNode state n) next (by simpa using real)
        (by simpa using nodup)

/-- Flipping fails on a graph without an exit and gives the flipped graph otherwise. -/
theorem flipCfg_spec (nodup : cfg.contents.Nodup) (real : none ∉ cfg.contents)
    (noneSucc : cfg.succEdges none = []) (nonePred : cfg.predEdges none = []) :
    (exits cfg cfg.contents = [] ∧ flipCfg cfg = .error (.assertion "cfg->entry")) ∨
      ∃ flipped, flipCfg cfg = .ok flipped ∧ Flipped cfg flipped ∧
        ∀ n, n ∉ cfg.contents → n ≠ none →
          flipped.succEdges n = cfg.succEdges n ∧ flipped.predEdges n = cfg.predEdges n := by
  have start : FlipsTo cfg [] ⟨none, cfg.succEdges, cfg.predEdges⟩ :=
    { entry := rfl
      succ := by simp
      pred := by simp
      virtualSucc := by simpa [exits] using noneSucc
      virtualPred := nonePred }
  have final := foldl_flipNode_spec cfg.contents [] _ start
    (by rintro v member rfl; exact real member) (by simpa using nodup)
  simp only [List.nil_append] at final
  unfold flipCfg
  generalize cfg.contents.foldl flipNode ⟨none, cfg.succEdges, cfg.predEdges⟩ = state at final
  have realOf : ∀ n ∈ cfg.contents, n ≠ none := by
    rintro n member rfl
    exact real member
  have lists : ∀ flipped : CFG, flipped.succEdges = state.succEdges →
      flipped.predEdges = state.predEdges →
      ((2 ≤ (exits cfg cfg.contents).length ∧ flipped.entry = none ∧
          flipped.contents = cfg.contents ++ [none]) ∨
        (exits cfg cfg.contents = [flipped.entry] ∧ flipped.contents = cfg.contents)) →
      Flipped cfg flipped ∧ ∀ n, n ∉ cfg.contents → n ≠ none →
        flipped.succEdges n = cfg.succEdges n ∧ flipped.predEdges n = cfg.predEdges n := by
    intro flipped sameSucc samePred entry
    refine ⟨{ succ := ?_, pred := ?_, virtual := ?_, entry := entry }, ?_⟩
    · intro n inside
      rw [sameSucc, final.succ n (realOf n inside), if_pos inside]
    · intro n inside
      rw [samePred, final.pred n (realOf n inside), if_pos inside]
    · rw [samePred, sameSucc]
      exact ⟨final.virtualPred, final.virtualSucc⟩
    · intro n outside realN
      rw [sameSucc, samePred, final.succ n realN, final.pred n realN, if_neg outside,
        if_neg outside]
      exact ⟨rfl, rfl⟩
  have entry := final.entry
  cases found : exits cfg cfg.contents with
  | nil =>
      rw [found] at entry
      simp only [flipEntry] at entry
      left
      simp [entry]
  | cons first more =>
      right
      have firstInside : first ∈ cfg.contents :=
        ((mem_exits cfg.contents first).mp (found ▸ List.mem_cons_self)).1
      rw [found] at entry lists
      cases more with
      | nil =>
          simp only [flipEntry] at entry
          simp only [entry]
          exact ⟨_, rfl, lists _ rfl rfl (Or.inr ⟨rfl, if_neg (realOf first firstInside)⟩)⟩
      | cons second more =>
          simp only [flipEntry] at entry
          simp only [entry]
          exact ⟨_, rfl, lists _ rfl rfl (Or.inl ⟨by simp, rfl, by simp⟩)⟩

end Flip

/-! ## Edges and walks of the flipped graph -/

/-- What the forward builder guarantees about a graph that is to be flipped. -/
structure Flippable (cfg : CFG) : Prop where
  wellFormed : cfg.WellFormed
  real : none ∉ cfg.contents

section FlippedGraph
variable {cfg flipped : CFG}

theorem Flippable.lists_outside (flippable : Flippable cfg) {n : CFNodeId}
    (outside : n ∉ cfg.contents) : cfg.succEdges n = [] ∧ cfg.predEdges n = [] := by
  have wellFormed := flippable.wellFormed
  constructor
  · rw [List.eq_nil_iff_forall_not_mem]
    intro e member
    exact outside (wellFormed.succ_mem n e member).1
  · rw [List.eq_nil_iff_forall_not_mem]
    intro e member
    obtain rfl := wellFormed.pred_dst n e member
    exact outside (wellFormed.succ_mem e.src e ((wellFormed.listed e).mpr member)).2

theorem CFEdge.flip_flip (e : CFEdge) : e.flip.flip = e := rfl

theorem mem_map_flip (edges : List CFEdge) (e : CFEdge) :
    e ∈ edges.map CFEdge.flip ↔ e.flip ∈ edges := by
  constructor
  · intro member
    obtain ⟨original, listed, rfl⟩ := List.mem_map.mp member
    exact listed
  · intro member
    exact List.mem_map.mpr ⟨e.flip, member, e.flip_flip⟩

theorem flipCfg_flipped (flippable : Flippable cfg) :
    (exits cfg cfg.contents = [] ∧ flipCfg cfg = .error (.assertion "cfg->entry")) ∨
      ∃ flipped, flipCfg cfg = .ok flipped ∧ Flipped cfg flipped ∧
        ∀ n, n ∉ cfg.contents → n ≠ none →
          flipped.succEdges n = [] ∧ flipped.predEdges n = [] := by
  obtain ⟨noneSucc, nonePred⟩ := flippable.lists_outside flippable.real
  rcases flipCfg_spec flippable.wellFormed.nodup flippable.real noneSucc nonePred with
    failed | ⟨flipped, ran, shape, outside⟩
  · exact Or.inl failed
  · refine Or.inr ⟨flipped, ran, shape, fun n missing realN => ?_⟩
    rw [(outside n missing realN).1, (outside n missing realN).2]
    exact flippable.lists_outside missing

variable (shape : Flipped cfg flipped)
include shape

theorem mem_flipped_contents (n : CFNodeId) : n ∈ flipped.contents ↔
    n ∈ cfg.contents ∨ (n = none ∧ 2 ≤ (exits cfg cfg.contents).length) := by
  rcases shape.entry with ⟨several, -, contents⟩ | ⟨single, contents⟩
  · simp [contents, several]
  · simp [contents, single]

variable (outside : ∀ n, n ∉ cfg.contents → n ≠ none →
  flipped.succEdges n = [] ∧ flipped.predEdges n = [])
include outside

theorem mem_flipped_pred (n : CFNodeId) (e : CFEdge) : e ∈ flipped.predEdges n ↔
    (n ∈ cfg.contents ∧ e.flip ∈ cfg.succEdges n) ∨
      (n ∈ exits cfg cfg.contents ∧ 2 ≤ (exits cfg cfg.contents).length ∧
        e = virtualEdge n) := by
  by_cases inside : n ∈ cfg.contents
  · rw [shape.pred n inside, List.mem_append, mem_map_flip]
    simp only [inside, true_and]
    refine or_congr_right ?_
    split_ifs with virtual
    · simp [virtual]
    · simp only [List.not_mem_nil, false_iff]
      rintro ⟨isExit, several, -⟩
      exact virtual ⟨several, isExit⟩
  · have noExit : n ∉ exits cfg cfg.contents := fun member =>
      inside ((mem_exits _ n).mp member).1
    by_cases virtual : n = none
    · subst virtual
      simp [shape.virtual.1, inside, noExit]
    · simp [(outside n inside virtual).2, inside, noExit]

variable (flippable : Flippable cfg)
include flippable

/-- The edges of the flipped graph: forward edges turned around, and virtual ones. -/
theorem mem_flipped_succ (n : CFNodeId) (e : CFEdge) : e ∈ flipped.succEdges n ↔
    (n ∈ cfg.contents ∧ e.flip ∈ cfg.predEdges n) ∨
      (n = none ∧ 2 ≤ (exits cfg cfg.contents).length ∧
        ∃ x ∈ exits cfg cfg.contents, e = virtualEdge x) := by
  have real := flippable.real
  by_cases inside : n ∈ cfg.contents
  · have realN : n ≠ none := by
      rintro rfl
      exact real inside
    rw [shape.succ n inside, mem_map_flip]
    simp [inside, realN]
  · by_cases virtual : n = none
    · subst virtual
      rw [shape.virtual.2]
      split_ifs with several
      · simp only [List.mem_map, inside, false_and, several, true_and, false_or, eq_comm]
      · simp [inside, several]
    · simp [(outside n inside virtual).1, inside, virtual]

theorem flipped_edge_iff (p v : CFNodeId) : flipped.Edge p v ↔
    cfg.Edge v p ∨ (p = none ∧ v ∈ exits cfg cfg.contents ∧
      2 ≤ (exits cfg cfg.contents).length) := by
  have wellFormed := flippable.wellFormed
  unfold CFG.Edge
  simp only [mem_flipped_succ shape outside flippable p]
  constructor
  · rintro ⟨e, ⟨-, listed⟩ | ⟨rfl, several, x, isExit, rfl⟩, rfl⟩
    · obtain rfl := wellFormed.pred_dst p e.flip listed
      exact Or.inl ⟨e.flip, (wellFormed.listed e.flip).mpr listed, rfl⟩
    · exact Or.inr ⟨rfl, isExit, several⟩
  · rintro (⟨e, listed, rfl⟩ | ⟨rfl, isExit, several⟩)
    · obtain rfl := wellFormed.succ_src v e listed
      exact ⟨e.flip, Or.inl ⟨(wellFormed.succ_mem _ e listed).2,
        (wellFormed.listed e).mp listed⟩, rfl⟩
    · exact ⟨virtualEdge v, Or.inr ⟨rfl, several, v, isExit, rfl⟩, rfl⟩

theorem flipped_wellFormed : flipped.WellFormed where
  nodup := by
    have wellFormed := flippable.wellFormed
    rcases shape.entry with ⟨-, -, contents⟩ | ⟨-, contents⟩
    · rw [contents, List.nodup_append]
      refine ⟨wellFormed.nodup, List.nodup_singleton _, ?_⟩
      rintro a member b virtual rfl
      exact flippable.real (List.mem_singleton.mp virtual ▸ member)
    · exact contents ▸ wellFormed.nodup
  entry_mem := by
    rcases shape.entry with ⟨-, entry, contents⟩ | ⟨single, contents⟩
    · simp [entry, contents]
    · rw [contents]
      exact ((mem_exits cfg.contents _).mp (single ▸ List.mem_cons_self)).1
  succ_src := by
    intro n e member
    rcases (mem_flipped_succ shape outside flippable n e).mp member with
      ⟨-, listed⟩ | ⟨rfl, -, x, -, rfl⟩
    · exact flippable.wellFormed.pred_dst n e.flip listed
    · rfl
  pred_dst := by
    intro n e member
    rcases (mem_flipped_pred shape outside n e).mp member with
      ⟨-, listed⟩ | ⟨-, -, rfl⟩
    · exact flippable.wellFormed.succ_src n e.flip listed
    · rfl
  succ_mem := by
    intro n e member
    rw [mem_flipped_contents shape, mem_flipped_contents shape]
    rcases (mem_flipped_succ shape outside flippable n e).mp member with
      ⟨inside, listed⟩ | ⟨rfl, several, x, isExit, rfl⟩
    · have back := (flippable.wellFormed.listed e.flip).mpr
        (flippable.wellFormed.pred_dst n e.flip listed ▸ listed)
      exact ⟨Or.inl inside, Or.inl (flippable.wellFormed.succ_mem _ e.flip back).1⟩
    · exact ⟨Or.inr ⟨rfl, several⟩, Or.inl ((mem_exits cfg.contents x).mp isExit).1⟩
  listed := by
    intro e
    rw [mem_flipped_succ shape outside flippable, mem_flipped_pred shape outside]
    have listed := flippable.wellFormed.listed e.flip
    constructor
    · rintro (⟨-, pred⟩ | ⟨virtual, several, x, isExit, rfl⟩)
      · have succ := listed.mpr pred
        exact Or.inl ⟨(flippable.wellFormed.succ_mem _ _ succ).1, succ⟩
      · exact Or.inr ⟨isExit, several, rfl⟩
    · rintro (⟨-, succ⟩ | ⟨isExit, several, same⟩)
      · exact Or.inl ⟨(flippable.wellFormed.succ_mem _ _ succ).2, listed.mp succ⟩
      · refine Or.inr ⟨?_, several, e.dst, isExit, same⟩
        rw [same]
        rfl

/-- Nothing leads to the virtual entry. -/
theorem walk_to_virtual {v : CFNodeId} {visited : List CFNodeId}
    (walk : Walk flipped.Edge flipped.entry v visited) (virtual : v = none) :
    visited = [none] := by
  cases walk with
  | start => rw [virtual]
  | step before taken =>
      subst virtual
      rcases (flipped_edge_iff shape outside flippable _ _).mp taken with
        back | ⟨rfl, virtualExit, -⟩
      · exact absurd (flippable.wellFormed.edge_mem back).1 flippable.real
      · exact absurd ((mem_exits cfg.contents none).mp virtualExit).1 flippable.real

/-- A walk of the flipped graph is an exit path, behind the virtual entry if there is one. -/
theorem exitPath_of_walk {v : CFNodeId} {visited : List CFNodeId}
    (walk : Walk flipped.Edge flipped.entry v visited) :
    (v = none ∧ flipped.entry = none) ∨
      ∃ path, ExitPath cfg v path ∧ path ⊆ visited ∧ ∀ u ∈ visited, u ∈ path ∨ u = none := by
  induction walk with
  | start =>
      rcases shape.entry with ⟨-, entry, -⟩ | ⟨single, -⟩
      · exact Or.inl ⟨entry, entry⟩
      · have isExit := (mem_exits cfg.contents _).mp (single ▸ List.mem_cons_self)
        exact Or.inr ⟨_, ExitPath.exit isExit.1 isExit.2, List.Subset.refl _, by simp⟩
  | @step p v visited before taken ih =>
      right
      rcases (flipped_edge_iff shape outside flippable p v).mp taken with
        back | ⟨rfl, isExit, several⟩
      · rcases ih with ⟨rfl, -⟩ | ⟨path, exitPath, subset, covers⟩
        · exact absurd (flippable.wellFormed.edge_mem back).2 flippable.real
        · refine ⟨v :: path, ExitPath.step back exitPath, ?_, ?_⟩
          · exact List.cons_subset_cons v subset
          · intro u member
            rcases List.mem_cons.mp member with rfl | earlier
            · exact Or.inl List.mem_cons_self
            · exact (covers u earlier).imp (List.mem_cons_of_mem v) id
      · have last := (mem_exits cfg.contents v).mp isExit
        refine ⟨[v], ExitPath.exit last.1 last.2, by simp, ?_⟩
        intro u member
        rcases List.mem_cons.mp member with rfl | earlier
        · simp
        · right
          have alone := walk_to_virtual shape outside flippable before rfl
          simpa [alone] using earlier

theorem walk_of_exitPath {v : CFNodeId} {path : List CFNodeId} (exitPath : ExitPath cfg v path) :
    ∃ visited, Walk flipped.Edge flipped.entry v visited ∧ path ⊆ visited ∧
      ∀ u ∈ visited, u ∈ path ∨ u = none := by
  induction exitPath with
  | @exit n inside last =>
      have isExit : n ∈ exits cfg cfg.contents := (mem_exits _ _).mpr ⟨inside, last⟩
      rcases shape.entry with ⟨several, entry, -⟩ | ⟨single, -⟩
      · have atVirtual : Walk flipped.Edge flipped.entry none [none] := by
          rw [entry]
          exact Walk.start
        refine ⟨[n, none], Walk.step atVirtual ?_, by simp, by simp⟩
        exact (flipped_edge_iff shape outside flippable none n).mpr
          (Or.inr ⟨rfl, isExit, several⟩)
      · have same : n = flipped.entry := by simpa [single] using isExit
        exact ⟨[n], same ▸ Walk.start, by simp, by simp⟩
  | @step n m path taken rest ih =>
      obtain ⟨visited, walk, subset, covers⟩ := ih
      refine ⟨n :: visited, Walk.step walk ?_, List.cons_subset_cons n subset, ?_⟩
      · exact (flipped_edge_iff shape outside flippable m n).mpr (Or.inl taken)
      · intro u member
        rcases List.mem_cons.mp member with rfl | later
        · exact Or.inl List.mem_cons_self
        · exact (covers u later).imp (List.mem_cons_of_mem n) id

/-- Among real nodes, dominance of the flipped graph is post-dominance. -/
theorem dominates_flipped_iff {d v : CFNodeId} (realD : d ≠ none) (realV : v ≠ none) :
    Dominates flipped.Edge flipped.entry d v ↔ PostDominates cfg d v := by
  constructor
  · intro dominates path exitPath
    obtain ⟨visited, walk, -, covers⟩ := walk_of_exitPath shape outside flippable exitPath
    exact (covers d (dominates visited walk)).resolve_right realD
  · intro post visited walk
    rcases exitPath_of_walk shape outside flippable walk with
      ⟨virtual, -⟩ | ⟨path, exitPath, subset, -⟩
    · exact absurd virtual realV
    · exact subset (post path exitPath)

theorem reachable_flipped_iff {v : CFNodeId} (realV : v ≠ none) :
    Reachable flipped.Edge flipped.entry v ↔ ∃ path, ExitPath cfg v path := by
  constructor
  · rintro ⟨visited, walk⟩
    rcases exitPath_of_walk shape outside flippable walk with
      ⟨virtual, -⟩ | ⟨path, exitPath, -, -⟩
    · exact absurd virtual realV
    · exact ⟨path, exitPath⟩
  · rintro ⟨path, exitPath⟩
    obtain ⟨visited, walk, -, -⟩ := walk_of_exitPath shape outside flippable exitPath
    exact ⟨visited, walk⟩

/-- The dominator tree of the flipped graph is the post-dominator tree. -/
theorem postExact_of_exact (reaches : EveryNodeReachesExit cfg) {tree : Domtree}
    (exact : tree.Exact flipped) : tree.PostExact cfg flipped := by
  have realOf : ∀ n ∈ cfg.contents, n ≠ none := by
    rintro n member rfl
    exact flippable.real member
  have keptOf : ∀ n ∈ cfg.contents, n ∈ flipped.contents := fun n member =>
    (mem_flipped_contents shape n).mpr (Or.inl member)
  constructor
  · intro n inside nonroot
    obtain ⟨d, step, immediate⟩ := exact.1 n (keptOf n inside) nonroot
    have realN := realOf n inside
    refine ⟨d, step, ?_, ?_⟩
    · intro realD
      refine ⟨⟨(dominates_flipped_iff shape outside flippable realD realN).mp immediate.1.1,
        immediate.1.2⟩, ?_⟩
      intro other insideOther strict
      have realOther := realOf other insideOther
      have dominates := immediate.2 other
        ⟨(dominates_flipped_iff shape outside flippable realOther realN).mpr strict.1, strict.2⟩
      exact (dominates_flipped_iff shape outside flippable realOther realD).mp dominates
    · rintro rfl other insideOther strict
      have realOther := realOf other insideOther
      have dominates := immediate.2 other
        ⟨(dominates_flipped_iff shape outside flippable realOther realN).mpr strict.1, strict.2⟩
      -- the virtual entry is the root, which nothing else dominates
      obtain ⟨path, exitPath⟩ := reaches n inside
      obtain ⟨visited, walk, -, -⟩ := walk_of_exitPath shape outside flippable exitPath
      have isEntry : flipped.entry = none := by
        obtain ⟨part, toVirtual, -⟩ := walk.upTo (immediate.1.1 visited walk)
        rcases shape.entry with ⟨-, entry, -⟩ | ⟨single, contents⟩
        · exact entry
        · have known := (flipped_wellFormed shape outside flippable).reachable_mem
            ⟨part, toVirtual⟩
          exact absurd (contents ▸ known) flippable.real
      have atVirtual : Walk flipped.Edge flipped.entry none [none] := by
        rw [isEntry]
        exact Walk.start
      have inside := dominates [none] atVirtual
      exact realOther (by simpa using inside)
  · intro a insideA b insideB
    obtain ⟨answer, found, right⟩ := exact.2 a (keptOf a insideA) b (keptOf b insideB)
    exact ⟨answer, found, right.trans (dominates_flipped_iff shape outside flippable
      (realOf b insideB) (realOf a insideA))⟩

end FlippedGraph

/-! ## The flipped build -/

theorem buildCfg_flippable {function : Function} {entry : AbsId} {config : CFGBuildConfig}
    {forward : CFG} (built : buildCfg function entry config = .ok forward) : Flippable forward :=
  ⟨(buildCfg_spec built).1, buildCfg_real built⟩

/-- Without tail edges in the forward graph there are none in the flipped one. -/
theorem flipped_noTails {cfg flipped : CFG} (shape : Flipped cfg flipped)
    (outside : ∀ n, n ∉ cfg.contents → n ≠ none →
      flipped.succEdges n = [] ∧ flipped.predEdges n = [])
    (noTails : ∀ n, ∀ e ∈ cfg.succEdges n, e.type ≠ .structuredTailEdge) (rpo : RpoState) :
    TailsEnteredFromDominator flipped rpo := by
  rintro n - - ⟨e, member, tail⟩
  rcases (mem_flipped_pred shape outside n e).mp member with
    ⟨-, listed⟩ | ⟨-, -, rfl⟩
  · exact absurd tail (noTails n e.flip listed)
  · simp [virtualEdge] at tail

/-- Every analysed graph is well formed, with all nodes reachable from its entry. -/
theorem newCfg_spec {function : Function} {entry : AbsId} {config : CFGBuildConfig}
    {result : AnalysedCFG} (analysed : newCfg function entry config = .ok result) :
    result.cfg.WellFormed ∧
      ∀ v ∈ result.cfg.contents, Reachable result.cfg.Edge result.cfg.entry v := by
  unfold newCfg at analysed
  rw [bind_eq_ok] at analysed
  obtain ⟨built, ran, analysed⟩ := analysed
  rw [bind_eq_ok] at analysed
  obtain ⟨cfg, flippedIs, analysed⟩ := analysed
  rw [bind_eq_ok] at analysed
  obtain ⟨rpo, numbered, analysed⟩ := analysed
  rw [bind_eq_ok] at analysed
  obtain ⟨tree, -, analysed⟩ := analysed
  obtain rfl := pure_eq_ok.mp analysed
  split_ifs at flippedIs with flip
  · have flippable := buildCfg_flippable ran
    rcases flipCfg_flipped flippable with ⟨-, failed⟩ | ⟨flipped, same, shape, outside⟩
    · simp [failed] at flippedIs
    · obtain rfl : flipped = cfg := Except.ok.inj (same.symm.trans flippedIs)
      have wellFormed := flipped_wellFormed shape outside flippable
      refine ⟨wellFormed, fun v inside => ?_⟩
      by_contra unreachable
      simp [computeRpo_fails wellFormed inside unreachable] at numbered
  · obtain rfl := Except.ok.inj flippedIs
    exact buildCfg_spec ran

/-- A flipped build is right: the edges are turned around, everything is numbered, and
the tree is the post-dominator tree of the forward graph. -/
def FlippedRight (forward : CFG) (result : AnalysedCFG) : Prop :=
  Flipped forward result.cfg ∧ result.rpo.Numbers result.cfg ∧
    result.tree.PostExact forward result.cfg

/-- A flipped build succeeds and is right if and only if every node of the forward graph
reaches an exit; otherwise one of the two assertions fails. -/
theorem flipped_right_iff_everyNodeReachesExit (function : Function) (entry : AbsId)
    (forward : CFG) (built : buildCfg function entry flippedCfgBuild = .ok forward) :
    (∃ result, newCfg function entry flippedCfgBuild = .ok result ∧
      FlippedRight forward result) ↔ EveryNodeReachesExit forward := by
  have flippable := buildCfg_flippable built
  have unfolded : newCfg function entry flippedCfgBuild = (do
      let cfg ← flipCfg forward
      let rpo ← computeRpo cfg
      let tree ← computeDomtree cfg rpo
      return ⟨cfg, rpo, tree⟩) := by
    unfold newCfg
    rw [built]
    rfl
  rw [unfolded]
  constructor
  · rintro ⟨result, ran, -⟩ n inside
    rw [bind_eq_ok] at ran
    obtain ⟨cfg, flippedIs, ran⟩ := ran
    rw [bind_eq_ok] at ran
    obtain ⟨rpo, numbered, -⟩ := ran
    rcases flipCfg_flipped flippable with ⟨-, failed⟩ | ⟨flipped, same, shape, outside⟩
    · simp [failed] at flippedIs
    · obtain rfl : flipped = cfg := Except.ok.inj (same.symm.trans flippedIs)
      have realN : n ≠ none := by
        rintro rfl
        exact flippable.real inside
      rw [← reachable_flipped_iff shape outside flippable realN]
      -- an unreachable node would fail the assertion of the numbering
      by_contra unreachable
      have failed := computeRpo_fails (flipped_wellFormed shape outside flippable)
        ((mem_flipped_contents shape n).mpr (Or.inl inside)) unreachable
      simp [failed] at numbered
  · intro reaches
    rcases flipCfg_flipped flippable with ⟨none, -⟩ | ⟨flipped, ran, shape, outside⟩
    · obtain ⟨path, exitPath⟩ := reaches forward.entry flippable.wellFormed.entry_mem
      have noExit : ∀ n path, ¬ ExitPath forward n path := by
        intro n path exitPath
        induction exitPath with
        | exit inside last =>
            have member := (mem_exits forward.contents _).mpr ⟨inside, last⟩
            simp [none] at member
        | step taken rest ih => exact ih
      exact absurd exitPath (noExit _ _)
    · have wellFormed := flipped_wellFormed shape outside flippable
      have reachable : ∀ v ∈ flipped.contents, Reachable flipped.Edge flipped.entry v := by
        intro v member
        rcases (mem_flipped_contents shape v).mp member with
          inside | ⟨rfl, several⟩
        · have realV : v ≠ none := by
            rintro rfl
            exact flippable.real inside
          exact (reachable_flipped_iff shape outside flippable realV).mpr (reaches v inside)
        · rcases shape.entry with ⟨-, entry, -⟩ | ⟨single, -⟩
          · exact entry ▸ reachable_root
          · simp [single] at several
      obtain ⟨rpo, numbered, numbers⟩ := computeRpo_numbers wellFormed reachable
      obtain ⟨tree, computed, exact⟩ := computeDomtree_exact numbers wellFormed reachable
        (flipped_noTails shape outside (buildCfg_noTails rfl built) rpo)
      refine ⟨⟨flipped, rpo, tree⟩, ?_, shape, numbers,
        postExact_of_exact shape outside flippable reaches exact⟩
      simp only [ran, numbered, computed, bind, Except.bind]
      rfl

/-- A branch to two returns. -/
def twoReturns : Function := ⟨0, [
  (0, ⟨true, [], some (.branch ⟨1, []⟩ ⟨2, []⟩)⟩),
  (1, ⟨false, [], some .fnRet⟩),
  (2, ⟨false, [], some .fnRet⟩)]⟩

theorem twoReturns_flipped_right : ∃ forward result,
    buildCfg twoReturns 0 flippedCfgBuild = .ok forward ∧
      newCfg twoReturns 0 flippedCfgBuild = .ok result ∧ FlippedRight forward result := by
  have summary : (buildCfg twoReturns 0 flippedCfgBuild).map (fun cfg =>
      (cfg.contents, cfg.succEdges (some 1), cfg.succEdges (some 2),
        (cfg.succEdges (some 0)).map (·.dst))) =
      .ok ([some 1, some 2, some 0], [], [], [some 1, some 2]) := by decide
  cases built : buildCfg twoReturns 0 flippedCfgBuild with
  | error e => simp [built, Except.map] at summary
  | ok forward =>
      simp only [built, Except.map, Except.ok.injEq, Prod.mk.injEq] at summary
      obtain ⟨contents, first, second, dsts⟩ := summary
      have exitOne : ExitPath forward (some 1) [some 1] := ExitPath.exit (by simp [contents]) first
      have exitTwo : ExitPath forward (some 2) [some 2] := ExitPath.exit (by simp [contents]) second
      have branch : forward.Edge (some 0) (some 1) := by
        have member : some 1 ∈ (forward.succEdges (some 0)).map (·.dst) := by simp [dsts]
        obtain ⟨e, listed, dst⟩ := List.mem_map.mp member
        exact ⟨e, listed, dst⟩
      obtain ⟨result, ran, right⟩ :=
        (flipped_right_iff_everyNodeReachesExit twoReturns 0 forward built).mpr (by
          intro n inside
          rw [contents] at inside
          rcases List.mem_cons.mp inside with rfl | inside
          · exact ⟨_, exitOne⟩
          · rcases List.mem_cons.mp inside with rfl | inside
            · exact ⟨_, exitTwo⟩
            · rcases List.mem_singleton.mp inside with rfl
              exact ⟨_, ExitPath.step branch exitOne⟩)
      exact ⟨forward, result, rfl, ran, right⟩

/-- A branch to a return and to a block that jumps to itself for ever. -/
def endlessLoop : Function := ⟨0, [
  (0, ⟨true, [], some (.branch ⟨1, []⟩ ⟨2, []⟩)⟩),
  (1, ⟨false, [], some .fnRet⟩),
  (2, ⟨false, [], some (.jump ⟨2, []⟩)⟩)]⟩

/-- The loop reaches no exit, so that the numbering of the flipped graph leaves it out;
without the return there would not even be an entry. -/
theorem endlessLoop_fails_assertion :
    (∃ forward, buildCfg endlessLoop 0 flippedCfgBuild = .ok forward) ∧
      ¬ (∃ result, newCfg endlessLoop 0 flippedCfgBuild = .ok result) ∧
      (newCfg endlessLoop 2 flippedCfgBuild).map (·.cfg.entry) =
        .error (.assertion "cfg->entry") := by
  have failed : (newCfg endlessLoop 0 flippedCfgBuild).map (·.cfg.entry) =
      .error (.assertion "index == 0") := by decide
  have builds : (buildCfg endlessLoop 0 flippedCfgBuild).map (·.entry) = .ok (some 0) := by decide
  refine ⟨?_, ?_, by decide⟩
  · cases built : buildCfg endlessLoop 0 flippedCfgBuild with
    | error e => simp [built, Except.map] at builds
    | ok forward => exact ⟨forward, rfl⟩
  · rintro ⟨result, ran⟩
    simp [ran, Except.map] at failed

end Shady
