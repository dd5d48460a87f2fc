import Shady.Analysis.Domtree

/-!
# When the dominator tree is exact

A pass over the nodes keeps three facts: the parents form a tree in which every
parent has a smaller index, no dominator of a node is lost, and after pass `k`
what is above a node lies on every walk to it of up to `k` vertices. The last
one holds for the nodes with a tail edge only where the parent that they never
change dominates them, which is the exact condition for the tree to be right.
-/

set_option autoImplicit false

namespace Shady
open Dominance Fallible

/-- The parents are the immediate dominators, and dominance queries are exact. -/
def Domtree.Exact (cfg : CFG) (tree : Domtree) : Prop :=
  (∀ n ∈ cfg.contents, n ≠ cfg.entry → ∃ d, tree.idom n = some d ∧
    ImmediatelyDominates cfg.Edge cfg.entry d n) ∧
  ∀ a ∈ cfg.contents, ∀ b ∈ cfg.contents, ∃ answer, isDominated cfg tree a b = .ok answer ∧
    (answer = true ↔ Dominates cfg.Edge cfg.entry b a)

/-- Where a tail edge enters a node, the first of its predecessor edges that comes from
an earlier node comes from a block that dominates all its predecessors. -/
def TailsEnteredFromDominator (cfg : CFG) (rpo : RpoState) : Prop :=
  ∀ n ∈ cfg.contents, n ≠ cfg.entry →
    (∃ e ∈ cfg.predEdges n, e.type = .structuredTailEdge) →
    ∀ first, firstEarlierEdge cfg rpo n = some first →
      ∀ e ∈ cfg.predEdges n, Dominates cfg.Edge cfg.entry first.src e.src

/-- The rank by which parents are smaller. -/
abbrev RpoState.rank (rpo : RpoState) (n : CFNodeId) : Nat := (rpo.rpoIndex n).value

section Numbered
variable {cfg : CFG} {rpo : RpoState}

theorem RpoState.Numbers.rank_lt (numbers : rpo.Numbers cfg) (wellFormed : cfg.WellFormed)
    {n : CFNodeId} (inside : n ∈ cfg.contents) : rpo.rank n < cfg.size := by
  obtain ⟨k, found⟩ := List.mem_iff_getElem?.mp ((numbers.listed n).mpr inside)
  have sameLength : rpo.rpo.length = cfg.size :=
    ((List.perm_ext_iff_of_nodup numbers.nodup wellFormed.nodup).mpr numbers.listed).length_eq
  have bound : k < rpo.rpo.length := (List.getElem?_eq_some_iff.mp found).1
  rw [RpoState.rank, (numbers.indexed n k).mpr found]
  exact sameLength ▸ bound

theorem RpoState.Numbers.rank_entry (numbers : rpo.Numbers cfg) : rpo.rank cfg.entry = 0 := by
  rw [RpoState.rank, numbers.entry]
  rfl

/-! ## Queries on a tree -/

section Tree
variable {idom : CFNodeId → Option CFNodeId}

/-- The least common ancestor has exactly the common ancestors above it. -/
theorem leastCommonAncestor_spec (numbers : rpo.Numbers cfg) (wellFormed : cfg.WellFormed)
    (reachable : ∀ v ∈ cfg.contents, Reachable cfg.Edge cfg.entry v)
    (tree : IsTree cfg.Edge cfg.entry idom rpo.rank) (fuel : Nat) :
    ∀ i ∈ cfg.contents, ∀ j ∈ cfg.contents, rpo.rank i + rpo.rank j < fuel →
      ∃ q ∈ cfg.contents, leastCommonAncestor rpo idom fuel i j = .ok q ∧
        ∀ a, Above idom q a ↔ Above idom i a ∧ Above idom j a := by
  induction fuel with
  | zero => intro i _ j _ bound; omega
  | succ fuel ih =>
      -- the node with the larger index is above no node with a smaller one
      have climb : ∀ x ∈ cfg.contents, ∀ y ∈ cfg.contents, rpo.rank x < rpo.rank y →
          ∃ next ∈ cfg.contents, idom y = some next ∧ rpo.rank next < rpo.rank y ∧
            ∀ a, (Above idom x a ∧ Above idom y a) ↔ (Above idom x a ∧ Above idom next a) := by
        intro x _ y insideY less
        have nonroot : y ≠ cfg.entry := by
          rintro rfl
          have := numbers.rank_entry
          omega
        obtain ⟨next, step⟩ := tree.total y (reachable y insideY) nonroot
        refine ⟨next, wellFormed.reachable_mem (tree.closed y next step), step,
          tree.lower y next step, fun a => and_congr_right fun above => ?_⟩
        rw [above_iff y a]
        constructor
        · rintro (rfl | ⟨p, stepP, rest⟩)
          · have := tree.rank_le above
            omega
          · obtain rfl : next = p := Option.some.inj (step.symm.trans stepP)
            exact rest
        · exact fun rest => Or.inr ⟨next, step, rest⟩
      intro i insideI j insideJ bound
      unfold leastCommonAncestor
      split_ifs with same less
      · obtain rfl := numbers.value_injective insideI insideJ same
        exact ⟨i, insideI, rfl, by simp⟩
      · obtain ⟨next, insideNext, step, smaller, common⟩ := climb i insideI j insideJ less
        simp only [step]
        obtain ⟨q, insideQ, found, above⟩ := ih i insideI next insideNext (by omega)
        exact ⟨q, insideQ, found, fun a => (above a).trans (common a).symm⟩
      · have greater : rpo.rank j < rpo.rank i := by
          simp only [RpoState.rank]
          omega
        obtain ⟨next, insideNext, step, smaller, common⟩ := climb j insideJ i insideI greater
        simp only [step]
        obtain ⟨q, insideQ, found, above⟩ := ih next insideNext j insideJ (by omega)
        refine ⟨q, insideQ, found, fun a => (above a).trans ?_⟩
        rw [and_comm, and_comm (a := Above idom i a)]
        exact (common a).symm

/-- With no structural parent in play, a dominance query climbs the tree. -/
theorem isDominated_climb (tree : Domtree)
    (isTree : IsTree cfg.Edge cfg.entry tree.idom rpo.rank)
    (plain : ∀ n, tree.idom n = none → tree.structuredIdom n = none) (b : CFNodeId) :
    ∀ fuel a, rpo.rank a < fuel → ∃ answer, isDominated.climb tree b fuel a = .ok answer ∧
      (answer = true ↔ Above tree.idom a b) := by
  intro fuel
  induction fuel with
  | zero => intro a bound; omega
  | succ fuel ih =>
      intro a bound
      unfold isDominated.climb
      split_ifs with same
      · exact ⟨true, rfl, by simp [same, Above.refl]⟩
      · cases next : tree.idom a with
        | none =>
            simp only [plain a next]
            refine ⟨false, rfl, ?_⟩
            simp [above_iff a b, next, Ne.symm same]
        | some p =>
            have := isTree.lower a p next
            obtain ⟨answer, found, exact⟩ := ih p (by omega)
            refine ⟨answer, found, exact.trans ?_⟩
            simp [above_iff a b, next, Ne.symm same]

end Tree

/-! ## The first parents -/

theorem structuredIdom_none_iff (n : CFNodeId) (inside : n ∈ cfg.contents)
    (nonroot : n ≠ cfg.entry) :
    structuredIdom cfg n = none ↔ ∀ e ∈ cfg.predEdges n, e.type ≠ .structuredTailEdge := by
  simp [structuredIdom, inside, nonroot]

theorem firstIdom_some (n p : CFNodeId) (first : firstIdom cfg rpo n = some p) :
    n ∈ cfg.contents ∧ n ≠ cfg.entry ∧
      ∃ e ∈ cfg.predEdges n, firstEarlierEdge cfg rpo n = some e ∧ e.src = p ∧
        rpo.rank p < rpo.rank n := by
  unfold firstIdom at first
  split_ifs at first with inner
  obtain ⟨e, found, rfl⟩ := Option.map_eq_some_iff.mp first
  refine ⟨inner.1, inner.2, e, List.mem_of_find?_eq_some found, found, rfl, ?_⟩
  simpa using List.find?_some found

theorem firstIdom_total (numbers : rpo.Numbers cfg) (wellFormed : cfg.WellFormed)
    {n : CFNodeId} (inside : n ∈ cfg.contents) (nonroot : n ≠ cfg.entry) :
    ∃ p, firstIdom cfg rpo n = some p := by
  obtain ⟨p, taken, less⟩ := numbers.parent n inside nonroot
  obtain ⟨e, member, rfl⟩ := (wellFormed.edge_iff_pred p n).mp taken
  have found : (firstEarlierEdge cfg rpo n).isSome := by
    rw [firstEarlierEdge, List.find?_isSome]
    exact ⟨e, member, by simpa using less⟩
  obtain ⟨first, foundFirst⟩ := Option.isSome_iff_exists.mp found
  exact ⟨first.src, by simp [firstIdom, inside, nonroot, foundFirst]⟩

theorem firstIdom_isTree (numbers : rpo.Numbers cfg) (wellFormed : cfg.WellFormed)
    (reachable : ∀ v ∈ cfg.contents, Reachable cfg.Edge cfg.entry v) :
    IsTree cfg.Edge cfg.entry (firstIdom cfg rpo) rpo.rank where
  root_none := by simp [firstIdom]
  total := fun v reached nonroot =>
    firstIdom_total numbers wellFormed (wellFormed.reachable_mem reached) nonroot
  closed := by
    intro v p first
    obtain ⟨-, -, e, member, -, rfl, -⟩ := firstIdom_some v p first
    exact reachable _ (wellFormed.edge_mem ((wellFormed.edge_iff_pred _ v).mpr
      ⟨e, member, rfl⟩)).1
  lower := by
    intro v p first
    obtain ⟨-, -, e, -, -, -, less⟩ := firstIdom_some v p first
    exact less

theorem firstIdom_keeps (wellFormed : cfg.WellFormed) :
    Keeps cfg.Edge cfg.entry (firstIdom cfg rpo) := by
  intro v p first d strict
  obtain ⟨-, -, e, member, -, rfl, -⟩ := firstIdom_some v p first
  exact strict.1.of_edge strict.2 ((wellFormed.edge_iff_pred _ v).mpr ⟨e, member, rfl⟩)

/-! ## One turn of the loop -/

/-- What every turn of the loop keeps. -/
structure IdomInvariant (cfg : CFG) (rpo : RpoState) (idom : CFNodeId → Option CFNodeId) :
    Prop where
  tree : IsTree cfg.Edge cfg.entry idom rpo.rank
  keeps : Keeps cfg.Edge cfg.entry idom
  frozen : ∀ n, structuredIdom cfg n ≠ none → idom n = firstIdom cfg rpo n
  outside : ∀ n, n ∉ cfg.contents → idom n = none

section Turn
variable (numbers : rpo.Numbers cfg) (wellFormed : cfg.WellFormed)
  (reachable : ∀ v ∈ cfg.contents, Reachable cfg.Edge cfg.entry v)
  {idom : CFNodeId → Option CFNodeId} (invariant : IdomInvariant cfg rpo idom)
include numbers wellFormed reachable invariant

/-- The ancestors that all predecessors share are those of the new parent. -/
theorem mergeIdom_spec (edges : List CFEdge)
    (preds : ∀ e ∈ edges, e.src ∈ cfg.contents ∧ e.type ≠ .structuredTailEdge) :
    ∀ start ∈ cfg.contents, ∃ q ∈ cfg.contents,
      edges.foldlM (mergeIdom cfg rpo idom) (some start) = .ok (some q) ∧
        ∀ a, Above idom q a ↔ Above idom start a ∧ ∀ e ∈ edges, Above idom e.src a := by
  induction edges with
  | nil =>
      intro start inside
      exact ⟨start, inside, rfl, by simp⟩
  | cons e edges ih =>
      intro start inside
      obtain ⟨srcInside, noTail⟩ := preds e List.mem_cons_self
      have startBound := numbers.rank_lt wellFormed inside
      have srcBound := numbers.rank_lt wellFormed srcInside
      obtain ⟨middle, middleInside, merged, aboveMiddle⟩ :=
        leastCommonAncestor_spec numbers wellFormed reachable invariant.tree (2 * cfg.size)
          start inside e.src srcInside (by omega)
      obtain ⟨q, insideQ, ran, above⟩ :=
        ih (fun e member => preds e (List.mem_cons_of_mem _ member)) middle middleInside
      refine ⟨q, insideQ, ?_, ?_⟩
      · rw [List.foldlM_cons, bind_eq_ok]
        refine ⟨some middle, ?_, ran⟩
        simp only [mergeIdom, if_neg noTail, merged]
        rfl
      · intro a
        rw [above a, aboveMiddle a]
        simp [and_assoc]

/-- The new parent of a node: what is above it is above all predecessors. -/
theorem newIdom_spec {n : CFNodeId} (inside : n ∈ cfg.contents) (nonroot : n ≠ cfg.entry)
    (plain : structuredIdom cfg n = none) :
    ∃ q ∈ cfg.contents,
      (cfg.predEdges n).foldlM (mergeIdom cfg rpo idom) none = .ok (some q) ∧
        ∀ a, Above idom q a ↔ ∀ p, cfg.Edge p n → Above idom p a := by
  have noTail := (structuredIdom_none_iff n inside nonroot).mp plain
  have preds : ∀ e ∈ cfg.predEdges n, e.src ∈ cfg.contents ∧ e.type ≠ .structuredTailEdge := by
    intro e member
    have taken := (wellFormed.edge_iff_pred e.src n).mpr ⟨e, member, rfl⟩
    exact ⟨(wellFormed.edge_mem taken).1, noTail e member⟩
  have byEdge : ∀ a, (∀ p, cfg.Edge p n → Above idom p a) ↔
      ∀ e ∈ cfg.predEdges n, Above idom e.src a := by
    intro a
    constructor
    · exact fun all e member => all e.src ((wellFormed.edge_iff_pred _ n).mpr ⟨e, member, rfl⟩)
    · rintro all p taken
      obtain ⟨e, member, rfl⟩ := (wellFormed.edge_iff_pred p n).mp taken
      exact all e member
  simp only [byEdge]
  obtain ⟨p, taken, -⟩ := numbers.parent n inside nonroot
  obtain ⟨some, member, -⟩ := (wellFormed.edge_iff_pred p n).mp taken
  cases edges : cfg.predEdges n with
  | nil => simp [edges] at member
  | cons e rest =>
      rw [edges] at preds
      obtain ⟨srcInside, firstNoTail⟩ := preds e List.mem_cons_self
      obtain ⟨q, insideQ, ran, above⟩ :=
        mergeIdom_spec numbers wellFormed reachable invariant rest
          (fun e member => preds e (List.mem_cons_of_mem _ member)) e.src srcInside
      refine ⟨q, insideQ, ?_, ?_⟩
      · rw [List.foldlM_cons, bind_eq_ok]
        exact ⟨_, by simp only [mergeIdom, if_neg firstNoTail], ran⟩
      · intro a
        rw [above a]
        simp

/-- Giving a node its new parent keeps the invariant. -/
theorem IdomInvariant.update {n q : CFNodeId} (inside : n ∈ cfg.contents)
    (nonroot : n ≠ cfg.entry) (plain : structuredIdom cfg n = none) (insideQ : q ∈ cfg.contents)
    (above : ∀ a, Above idom q a ↔ ∀ p, cfg.Edge p n → Above idom p a) :
    IdomInvariant cfg rpo (fun v => if v = n then some q else idom v) := by
  obtain ⟨p, taken, earlier⟩ := numbers.parent n inside nonroot
  have insideP := (wellFormed.edge_mem taken).1
  have throughP : Above idom p q := (above q).mp (Above.refl q) p taken
  exact
    { tree :=
        { root_none := by
            rw [if_neg (Ne.symm nonroot)]
            exact invariant.tree.root_none
          total := by
            intro v reached other
            split_ifs with same
            · exact ⟨q, rfl⟩
            · exact invariant.tree.total v reached other
          closed := by
            intro v w step
            split_ifs at step with same
            · exact Option.some.inj step ▸ reachable q insideQ
            · exact invariant.tree.closed v w step
          lower := by
            intro v w step
            split_ifs at step with same
            · obtain rfl := Option.some.inj step
              exact same ▸ (invariant.tree.rank_le throughP).trans_lt earlier
            · exact invariant.tree.lower v w step }
      keeps := by
        intro v w step d strict
        simp only at step
        split_ifs at step with same
        · obtain rfl := Option.some.inj step
          subst same
          -- a strict dominator dominates all predecessors, so it is above the new parent
          have dominatesPred : ∀ p, cfg.Edge p v → Dominates cfg.Edge cfg.entry d p :=
            fun p taken => strict.1.of_edge strict.2 taken
          have aboveQ : Above idom q d := (above d).mpr fun p taken =>
            invariant.keeps.above invariant.tree p
              (reachable p (wellFormed.edge_mem taken).1) d (dominatesPred p taken)
          exact invariant.keeps.between invariant.tree throughP aboveQ (dominatesPred p taken)
        · exact invariant.keeps v w step d strict
      frozen := by
        intro v structured
        have other : v ≠ n := by
          rintro rfl
          exact structured plain
        rw [if_neg other]
        exact invariant.frozen v structured
      outside := by
        intro v missing
        have other : v ≠ n := by
          rintro rfl
          exact missing inside
        rw [if_neg other]
        exact invariant.outside v missing }

end Turn

/-! ## One pass -/

/-- The walks that count for a node: one vertex more once the pass has been there. -/
def bound (done : List CFNodeId) (k : Nat) (v : CFNodeId) : Nat := if v ∈ done then k + 1 else k

theorem bound_low (done : List CFNodeId) (k : Nat) (v : CFNodeId) : k ≤ bound done k v := by
  unfold bound
  split_ifs <;> omega

theorem bound_top (done : List CFNodeId) (k : Nat) (v : CFNodeId) : bound done k v ≤ k + 1 := by
  unfold bound
  split_ifs <;> omega

theorem bound_self (done : List CFNodeId) (k : Nat) (n : CFNodeId) :
    bound (n :: done) k n = k + 1 := by
  simp [bound]

theorem bound_other (done : List CFNodeId) (k : Nat) {n v : CFNodeId} (other : v ≠ n) :
    bound (n :: done) k v = bound done k v := by
  simp [bound, other]

/-- What is above a node is exactly what dominates it. -/
def IdomExact (cfg : CFG) (idom : CFNodeId → Option CFNodeId) : Prop :=
  ∀ v, Reachable cfg.Edge cfg.entry v →
    ∀ d, Dominates cfg.Edge cfg.entry d v ↔ Above idom v d

theorem idomExact_of_within (wellFormed : cfg.WellFormed)
    {idom : CFNodeId → Option CFNodeId} (invariant : IdomInvariant cfg rpo idom)
    (within : Within cfg.Edge cfg.entry idom fun _ => cfg.size) : IdomExact cfg idom :=
  fun _ reached d => dominates_iff_above invariant.tree invariant.keeps
    (fun _ met => wellFormed.reachable_mem met) within reached d

/-- A node that keeps its first parent has a dominator for it. -/
theorem frozen_dominates (wellFormed : cfg.WellFormed)
    (tails : TailsEnteredFromDominator cfg rpo) {n p : CFNodeId} (structured : structuredIdom cfg n ≠ none)
    (first : firstIdom cfg rpo n = some p) :
    ImmediatelyDominates cfg.Edge cfg.entry p n := by
  obtain ⟨inside, nonroot, e, member, found, rfl, less⟩ := firstIdom_some n p first
  have tailEdge : ∃ e ∈ cfg.predEdges n, e.type = .structuredTailEdge := by
    by_contra none
    push Not at none
    exact structured ((structuredIdom_none_iff n inside nonroot).mpr none)
  refine immediatelyDominates_of_edge nonroot (by rintro same; simp [same] at less)
    ((wellFormed.edge_iff_pred _ n).mpr ⟨e, member, rfl⟩) ?_
  intro q taken
  obtain ⟨edge, listed, rfl⟩ := (wellFormed.edge_iff_pred q n).mp taken
  exact tails n inside nonroot tailEdge e found edge listed

section Pass
variable (numbers : rpo.Numbers cfg) (wellFormed : cfg.WellFormed)
  (reachable : ∀ v ∈ cfg.contents, Reachable cfg.Edge cfg.entry v)
  (tails : TailsEnteredFromDominator cfg rpo)
include numbers wellFormed reachable tails

/-- One turn of the loop extends the walks that count for its node by one vertex. On
an exact tree it changes nothing. -/
theorem updateIdom_spec {idom : CFNodeId → Option CFNodeId} (todo : Bool)
    {done : List CFNodeId} {k : Nat} (invariant : IdomInvariant cfg rpo idom)
    (within : Within cfg.Edge cfg.entry idom (bound done k))
    {n : CFNodeId} (inside : n ∈ cfg.contents) :
    ∃ next changed, updateIdom cfg rpo (idom, todo) n = .ok (next, changed) ∧
      IdomInvariant cfg rpo next ∧ Within cfg.Edge cfg.entry next (bound (n :: done) k) ∧
      (changed = false → todo = false ∧ next = idom) ∧
      (IdomExact cfg idom → next = idom ∧ changed = todo) := by
  unfold updateIdom
  by_cases isEntry : n = cfg.entry
  · refine ⟨idom, todo, by simp [isEntry], invariant, ?_, by simp, by simp⟩
    intro v a above visited walk short
    by_cases same : v = n
    · subst same
      subst isEntry
      exact invariant.tree.above_root above ▸ walk.self_mem
    · exact within v a above visited walk (bound_other done k same ▸ short)
  · by_cases plain : structuredIdom cfg n = none
    · obtain ⟨q, insideQ, merged, above⟩ :=
        newIdom_spec numbers wellFormed reachable invariant inside isEntry plain
      have improved : ∀ next : CFNodeId → Option CFNodeId, IdomInvariant cfg rpo next →
          next n = some q → (∀ v, v ≠ n → next v = idom v) →
          Within cfg.Edge cfg.entry next (bound (n :: done) k) := by
        intro next kept parentIs frame
        refine within.improve kept.tree parentIs
          (fun v other => ⟨frame v other, bound_other done k other⟩) (bound_low done k)
          (bound_top _ k) (bound_self done k n) ?_
        intro visited walk short
        cases walk with
        | start => exact absurd rfl isEntry
        | @step p _ rest before taken =>
            -- the new parent is above the predecessor that this walk comes through
            have abovePred : Above idom p q := (above q).mp (Above.refl q) p taken
            simp only [List.length_cons] at short
            have := bound_low done k p
            exact List.mem_cons_of_mem _ (within p q abovePred rest before (by omega))
      rw [if_neg (by simp [isEntry, plain])]
      simp only [merged, bind, Except.bind]
      by_cases settled : idom n = some q
      · refine ⟨idom, todo, by simp [settled, pure, Except.pure], invariant,
          improved idom invariant settled (fun _ _ => rfl), by simp, by simp⟩
      · refine ⟨_, true, by rw [if_neg settled]; rfl,
          invariant.update numbers wellFormed reachable inside isEntry plain insideQ above,
          improved _ (invariant.update numbers wellFormed reachable inside isEntry plain
            insideQ above) (by simp) (by intro v other; simp [other]), by simp, ?_⟩
        intro exact
        -- in the dominator tree the parent already is what the predecessors share
        exfalso
        obtain ⟨parent, step⟩ := invariant.tree.total n (reachable n inside) isEntry
        have immediate := immediatelyDominates_of_exact invariant.tree exact
          (reachable n inside) step
        have parentAbove : Above idom q parent := (above parent).mpr fun p taken =>
          (exact p (reachable p (wellFormed.edge_mem taken).1) parent).mp
            (immediate.1.1.of_edge immediate.1.2 taken)
        have qDominates : ∀ p, cfg.Edge p n → Dominates cfg.Edge cfg.entry q p :=
          fun p taken => (exact p (reachable p (wellFormed.edge_mem taken).1) q).mpr
            ((above q).mp (Above.refl q) p taken)
        obtain ⟨p, taken, earlier⟩ := numbers.parent n inside isEntry
        have smaller : rpo.rank q ≤ rpo.rank p :=
          invariant.tree.rank_le ((above q).mp (Above.refl q) p taken)
        have differs : q ≠ n := by
          rintro rfl
          simp only [RpoState.rank] at smaller
          omega
        have strict : StrictlyDominates cfg.Edge cfg.entry q n :=
          ⟨dominates_of_edges isEntry qDominates, differs⟩
        have back : Dominates cfg.Edge cfg.entry parent q :=
          (exact q (reachable q insideQ) parent).mpr parentAbove
        have same : parent = q :=
          Dominates.antisymm (invariant.tree.closed n parent step) back (immediate.2 q strict)
        exact settled (same ▸ step)
    · obtain ⟨p, step⟩ := invariant.tree.total n (reachable n inside) isEntry
      have first : firstIdom cfg rpo n = some p := (invariant.frozen n plain) ▸ step
      have dominates := frozen_dominates wellFormed tails plain first
      refine ⟨idom, todo, by simp [plain], invariant, ?_, by simp, by simp⟩
      exact within.improve invariant.tree step
        (fun v other => ⟨rfl, bound_other done k other⟩) (bound_low done k)
        (bound_top _ k) (bound_self done k n) fun visited walk _ => dominates.1.1 visited walk

theorem pass_spec {k : Nat} (nodes : List CFNodeId) :
    ∀ (done : List CFNodeId) (idom : CFNodeId → Option CFNodeId) (todo : Bool),
      (∀ n ∈ nodes, n ∈ cfg.contents) → IdomInvariant cfg rpo idom →
      Within cfg.Edge cfg.entry idom (bound done k) →
      ∃ next changed, nodes.foldlM (updateIdom cfg rpo) (idom, todo) = .ok (next, changed) ∧
        IdomInvariant cfg rpo next ∧
        Within cfg.Edge cfg.entry next (bound (nodes.reverse ++ done) k) ∧
        (changed = false → todo = false ∧ next = idom) ∧
        (IdomExact cfg idom → next = idom ∧ changed = todo) := by
  induction nodes with
  | nil =>
      intro done idom todo _ invariant within
      exact ⟨idom, todo, rfl, invariant, within, by simp, by simp⟩
  | cons n nodes ih =>
      intro done idom todo inside invariant within
      obtain ⟨middle, changedMiddle, ran, middleInvariant, middleWithin, quiet, settled⟩ :=
        updateIdom_spec numbers wellFormed reachable tails todo invariant within
          (inside n List.mem_cons_self)
      obtain ⟨next, changed, ranRest, nextInvariant, nextWithin, quietRest, settledRest⟩ :=
        ih (n :: done) middle changedMiddle
          (fun v member => inside v (List.mem_cons_of_mem _ member)) middleInvariant middleWithin
      refine ⟨next, changed, ?_, nextInvariant, ?_, ?_, ?_⟩
      · rw [List.foldlM_cons, ran]
        exact ranRest
      · simpa using nextWithin
      · intro unchanged
        obtain ⟨same, rfl⟩ := quietRest unchanged
        exact quiet same
      · intro exact
        obtain ⟨rfl, rfl⟩ := settled exact
        exact settledRest exact

/-- A whole pass. -/
theorem contents_pass_spec {k : Nat} {idom : CFNodeId → Option CFNodeId}
    (invariant : IdomInvariant cfg rpo idom)
    (within : Within cfg.Edge cfg.entry idom fun _ => k) :
    ∃ next changed, cfg.contents.foldlM (updateIdom cfg rpo) (idom, false) = .ok (next, changed) ∧
      IdomInvariant cfg rpo next ∧ (Within cfg.Edge cfg.entry next fun _ => k + 1) ∧
      (changed = false → next = idom) ∧ (IdomExact cfg idom → changed = false) := by
  have start : Within cfg.Edge cfg.entry idom (bound [] k) := by
    intro v a above visited walk short
    exact within v a above visited walk (by simpa [bound] using short)
  obtain ⟨next, changed, ran, kept, grown, quiet, settled⟩ :=
    pass_spec numbers wellFormed reachable tails cfg.contents [] idom false
      (fun _ member => member) invariant start
  refine ⟨next, changed, ran, kept, ?_, fun same => (quiet same).2, fun exact => (settled exact).2⟩
  intro v a above visited walk short
  have inside : v ∈ cfg.contents := wellFormed.reachable_mem ⟨visited, walk⟩
  exact grown v a above visited walk (by simpa [bound, inside] using short)

/-! ## All passes -/

/-- A pass that changes nothing has found the dominator tree. -/
theorem idomExact_of_fixpoint {k : Nat} {idom : CFNodeId → Option CFNodeId}
    (invariant : IdomInvariant cfg rpo idom)
    (within : Within cfg.Edge cfg.entry idom fun _ => k)
    (fixpoint : cfg.contents.foldlM (updateIdom cfg rpo) (idom, false) = .ok (idom, false)) :
    IdomExact cfg idom := by
  have always : ∀ more, Within cfg.Edge cfg.entry idom fun _ => k + more := by
    intro more
    induction more with
    | zero => exact within
    | succ more ih =>
        obtain ⟨next, changed, ran, -, grown, -, -⟩ :=
          contents_pass_spec numbers wellFormed reachable tails invariant ih
        rw [fixpoint] at ran
        obtain ⟨rfl, -⟩ := Prod.mk.inj (Except.ok.inj ran)
        exact grown
  refine idomExact_of_within wellFormed invariant ?_
  intro v a above visited walk short
  exact always cfg.size v a above visited walk (short.trans (Nat.le_add_left _ _))

/-- As many passes as there are nodes, and one to see that nothing changes, suffice. -/
theorem iterateIdom_exact (fuel : Nat) :
    ∀ (k : Nat) (idom : CFNodeId → Option CFNodeId), IdomInvariant cfg rpo idom →
      (Within cfg.Edge cfg.entry idom fun _ => k) → cfg.size ≤ k + fuel →
      ∃ final, iterateIdom cfg rpo (fuel + 1) idom = .ok final ∧
        IdomInvariant cfg rpo final ∧ IdomExact cfg final := by
  induction fuel with
  | zero =>
      intro k idom invariant within bound
      have exact := idomExact_of_within wellFormed invariant fun v a above visited walk short =>
        within v a above visited walk (short.trans bound)
      obtain ⟨next, changed, ran, kept, -, quiet, settled⟩ :=
        contents_pass_spec numbers wellFormed reachable tails invariant within
      obtain rfl := settled exact
      obtain rfl := quiet rfl
      exact ⟨next, by unfold iterateIdom; rw [ran]; rfl, kept, exact⟩
  | succ fuel ih =>
      intro k idom invariant within bound
      obtain ⟨next, changed, ran, kept, grown, quiet, -⟩ :=
        contents_pass_spec numbers wellFormed reachable tails invariant within
      unfold iterateIdom
      cases changed with
      | false =>
          obtain rfl := quiet rfl
          refine ⟨next, by rw [ran]; rfl, kept, ?_⟩
          exact idomExact_of_fixpoint numbers wellFormed reachable tails invariant within ran
      | true =>
          obtain ⟨final, ranRest, finalInvariant, exact⟩ := ih (k + 1) next kept grown (by omega)
          exact ⟨final, by rw [ran]; exact ranRest, finalInvariant, exact⟩

end Pass

/-! ## The whole computation -/

theorem checkFirstIdom_ok (numbers : rpo.Numbers cfg) (wellFormed : cfg.WellFormed)
    (nodes : List CFNodeId) (inside : ∀ n ∈ nodes, n ∈ cfg.contents) :
    nodes.forM (checkFirstIdom cfg rpo) = .ok () := by
  induction nodes with
  | nil => rfl
  | cons n nodes ih =>
      have first : checkFirstIdom cfg rpo n = .ok () := by
        unfold checkFirstIdom
        rw [if_neg]
        rintro ⟨nonroot, missing, -⟩
        obtain ⟨p, found⟩ := firstIdom_total numbers wellFormed (inside n List.mem_cons_self) nonroot
        simp [missing] at found
      change (checkFirstIdom cfg rpo n >>= fun _ => nodes.forM (checkFirstIdom cfg rpo)) = .ok ()
      rw [first]
      exact ih fun v member => inside v (List.mem_cons_of_mem _ member)

theorem firstIdom_invariant (numbers : rpo.Numbers cfg) (wellFormed : cfg.WellFormed)
    (reachable : ∀ v ∈ cfg.contents, Reachable cfg.Edge cfg.entry v) :
    IdomInvariant cfg rpo (firstIdom cfg rpo) where
  tree := firstIdom_isTree numbers wellFormed reachable
  keeps := firstIdom_keeps wellFormed
  frozen := fun _ _ => rfl
  outside := by
    intro n missing
    simp [firstIdom, missing]

/-- The computation ends with the dominator tree, where tails are entered from a
dominator. -/
theorem computeDomtree_exact (numbers : rpo.Numbers cfg) (wellFormed : cfg.WellFormed)
    (reachable : ∀ v ∈ cfg.contents, Reachable cfg.Edge cfg.entry v)
    (tails : TailsEnteredFromDominator cfg rpo) :
    ∃ tree, computeDomtree cfg rpo = .ok tree ∧ tree.Exact cfg := by
  have start := firstIdom_invariant numbers wellFormed reachable
  have nothing : Within cfg.Edge cfg.entry (firstIdom cfg rpo) fun _ => 0 := by
    intro v a _ visited walk short
    obtain ⟨rest, rfl⟩ := walk.head_eq
    simp at short
  obtain ⟨idom, ran, kept, exact⟩ := iterateIdom_exact numbers wellFormed reachable tails
    cfg.size 0 (firstIdom cfg rpo) start nothing (by omega)
  refine ⟨⟨idom, structuredIdom cfg, dominatesLists rpo idom⟩, ?_, ?_, ?_⟩
  · unfold computeDomtree
    rw [checkFirstIdom_ok numbers wellFormed cfg.contents fun _ member => member, ran]
    rfl
  · intro n inside nonroot
    obtain ⟨d, step⟩ := kept.tree.total n (reachable n inside) nonroot
    exact ⟨d, step, immediatelyDominates_of_exact kept.tree exact (reachable n inside) step⟩
  · intro a insideA b _
    have plain : ∀ n, idom n = none → structuredIdom cfg n = none := by
      intro n missing
      unfold structuredIdom
      rw [if_neg]
      rintro ⟨inside, nonroot⟩
      obtain ⟨d, step⟩ := kept.tree.total n (reachable n inside) nonroot
      simp [missing] at step
    obtain ⟨answer, found, above⟩ := isDominated_climb
      ⟨idom, structuredIdom cfg, dominatesLists rpo idom⟩ kept.tree plain b cfg.size a
      (numbers.rank_lt wellFormed insideA)
    exact ⟨answer, found, above.trans (exact a (reachable a insideA) b).symm⟩

/-- No turn of the loop touches a node with a tail edge. -/
theorem updateIdom_frozen {current next : (CFNodeId → Option CFNodeId) × Bool} {n v : CFNodeId}
    (structured : structuredIdom cfg v ≠ none)
    (ran : updateIdom cfg rpo current n = .ok next) : next.1 v = current.1 v := by
  unfold updateIdom at ran
  split_ifs at ran with skipped
  · obtain rfl := Except.ok.inj ran
    rfl
  · have other : v ≠ n := by
      rintro rfl
      exact skipped (Or.inr structured)
    rw [bind_eq_ok] at ran
    obtain ⟨merged, -, ran⟩ := ran
    cases merged with
    | none => simp at ran
    | some newIdom =>
        simp only at ran
        split_ifs at ran with settled
        · obtain rfl := pure_eq_ok.mp ran
          rfl
        · obtain rfl := pure_eq_ok.mp ran
          simp [other]

theorem iterateIdom_frozen {v : CFNodeId} (structured : structuredIdom cfg v ≠ none)
    (fuel : Nat) : ∀ (idom final : CFNodeId → Option CFNodeId),
      iterateIdom cfg rpo fuel idom = .ok final → final v = idom v := by
  induction fuel with
  | zero => intro idom final ran; simp [iterateIdom] at ran
  | succ fuel ih =>
      intro idom final ran
      unfold iterateIdom at ran
      rw [bind_eq_ok] at ran
      obtain ⟨⟨next, todo⟩, pass, ran⟩ := ran
      have same : next v = idom v := foldlM_keeps (fun current => current.1 v = idom v)
        (fun n _ current after kept step => (updateIdom_frozen structured step).trans kept)
        rfl pass
      cases todo with
      | false =>
          obtain rfl := pure_eq_ok.mp ran
          exact same
      | true => exact (ih next final ran).trans same

/-- An exact tree has dominators for the parents that are never changed. -/
theorem tailsEnteredFromDominator_of_exact (wellFormed : cfg.WellFormed) {tree : Domtree}
    (ran : computeDomtree cfg rpo = .ok tree) (exact : tree.Exact cfg) :
    TailsEnteredFromDominator cfg rpo := by
  intro n inside nonroot tailEdge first found e member
  have structured : structuredIdom cfg n ≠ none := by
    intro none
    obtain ⟨edge, listed, tail⟩ := tailEdge
    exact (structuredIdom_none_iff n inside nonroot).mp none edge listed tail
  unfold computeDomtree at ran
  rw [bind_eq_ok] at ran
  obtain ⟨⟨⟩, -, ran⟩ := ran
  rw [bind_eq_ok] at ran
  obtain ⟨idom, iterated, ran⟩ := ran
  obtain rfl := pure_eq_ok.mp ran
  obtain ⟨d, step, immediate⟩ := exact.1 n inside nonroot
  have kept : idom n = firstIdom cfg rpo n := iterateIdom_frozen structured _ _ _ iterated
  have firstIs : firstIdom cfg rpo n = some first.src := by
    simp [firstIdom, inside, nonroot, found]
  obtain rfl : first.src = d := Option.some.inj ((kept.trans firstIs).symm.trans step)
  exact immediate.1.1.of_edge immediate.1.2
    ((wellFormed.edge_iff_pred _ n).mpr ⟨e, member, rfl⟩)

end Numbered

theorem newCfg_forward {function : Function} {entry : AbsId} {config : CFGBuildConfig}
    {cfg : CFG} {rpo : RpoState} (forward : config.flipped = false)
    (built : buildCfg function entry config = .ok cfg) (numbered : computeRpo cfg = .ok rpo)
    (tree : Domtree) : newCfg function entry config = .ok ⟨cfg, rpo, tree⟩ ↔
      computeDomtree cfg rpo = .ok tree := by
  simp only [newCfg, built, forward, bind, Except.bind, numbered, Bool.false_eq_true, if_false]
  cases computeDomtree cfg rpo <;> simp [pure, Except.pure]

/-- Analysing a forward graph ends with its dominator tree if and only if every node
with a tail edge is first entered from a dominator of all its predecessors. -/
theorem domtree_exact_iff_tailsEnteredFromDominator (function : Function) (entry : AbsId)
    (config : CFGBuildConfig) (cfg : CFG) (forward : config.flipped = false)
    (built : buildCfg function entry config = .ok cfg) :
    ∃ rpo, computeRpo cfg = .ok rpo ∧
      ((∃ tree, newCfg function entry config = .ok ⟨cfg, rpo, tree⟩ ∧ tree.Exact cfg) ↔
        TailsEnteredFromDominator cfg rpo) := by
  obtain ⟨wellFormed, reachable⟩ := buildCfg_spec built
  obtain ⟨rpo, numbered, numbers⟩ := computeRpo_numbers wellFormed reachable
  refine ⟨rpo, numbered, ?_⟩
  simp only [newCfg_forward forward built numbered]
  constructor
  · rintro ⟨tree, ran, exact⟩
    exact tailsEnteredFromDominator_of_exact wellFormed ran exact
  · exact computeDomtree_exact numbers wellFormed reachable

/-- An `if` with two branches that both leave it. -/
def diamond : Function := ⟨0, [
  (0, ⟨true, [], some (.ifInstr 1 (some 2) 3)⟩),
  (1, ⟨false, [], some .mergeSelection⟩),
  (2, ⟨false, [], some .mergeSelection⟩),
  (3, ⟨false, [], some .fnRet⟩)]⟩

/-- In an `if` the tail edge comes first, so that the tree is exact. -/
theorem diamond_tree_exact : ∃ cfg rpo tree,
    newCfg diamond 0 defaultForwardCfgBuild = .ok ⟨cfg, rpo, tree⟩ ∧ tree.Exact cfg := by
  have summary : (do
      let cfg ← buildCfg diamond 0 defaultForwardCfgBuild
      let rpo ← computeRpo cfg
      return cfg.contents.filter fun n =>
        (structuredIdom cfg n).isSome ∧ firstIdom cfg rpo n ≠ some cfg.entry) = .ok [] := by
    decide
  rw [bind_eq_ok] at summary
  obtain ⟨cfg, built, summary⟩ := summary
  rw [bind_eq_ok] at summary
  obtain ⟨rpo, numbered, summary⟩ := summary
  obtain ⟨rpoAgain, numberedAgain, exact⟩ := domtree_exact_iff_tailsEnteredFromDominator
    diamond 0 defaultForwardCfgBuild cfg rfl built
  obtain rfl : rpo = rpoAgain := Except.ok.inj (numbered.symm.trans numberedAgain)
  obtain ⟨tree, ran, right⟩ := exact.mpr (by
    intro n inside nonroot tailEdge first found e _ visited walk
    have structured : structuredIdom cfg n ≠ none := by
      intro none
      obtain ⟨edge, listed, tail⟩ := tailEdge
      exact (structuredIdom_none_iff n inside nonroot).mp none edge listed tail
    have fromEntry := List.filter_eq_nil_iff.mp (pure_eq_ok.mp summary) n inside
    simp only [Option.isSome_iff_ne_none, structured, ne_eq, not_false_eq_true, true_and,
      decide_eq_true_eq, not_not] at fromEntry
    simp only [firstIdom, inside, nonroot, ne_eq, not_false_eq_true, and_self, if_true, found,
      Option.map_some, Option.some.injEq] at fromEntry
    exact fromEntry ▸ walk.root_mem)
  exact ⟨cfg, rpo, tree, ran, right⟩

/-- A `control` that is left through two joins. -/
def twoJoins : Function := ⟨0, [
  (0, ⟨true, [], some (.control 1 4)⟩),
  (1, ⟨false, [7], some (.branch ⟨2, []⟩ ⟨3, []⟩)⟩),
  (2, ⟨false, [], some (.join 7)⟩),
  (3, ⟨false, [], some (.join 7)⟩),
  (4, ⟨false, [], some .fnRet⟩)]⟩

/-- The block of the first join becomes the parent of the tail, which the second join
reaches without it. -/
theorem join_block_is_no_dominator : ∃ result,
    newCfg twoJoins 0 defaultForwardCfgBuild = .ok result ∧
      result.tree.idom (some 4) = some (some 2) ∧ ¬ result.tree.Exact result.cfg := by
  have summary : (newCfg twoJoins 0 defaultForwardCfgBuild).map (fun result =>
      (result.cfg.entry, result.tree.idom (some 4), decide (some 4 ∈ result.cfg.contents),
        (result.cfg.succEdges (some 0)).map (·.dst))) =
      .ok (some 0, some (some 2), true, [some 1, some 4]) := by decide
  cases ran : newCfg twoJoins 0 defaultForwardCfgBuild with
  | error e => simp [ran, Except.map] at summary
  | ok result =>
      simp only [ran, Except.map, Except.ok.injEq, Prod.mk.injEq, decide_eq_true_eq] at summary
      obtain ⟨entry, parent, inside, dsts⟩ := summary
      refine ⟨result, rfl, parent, fun exact => ?_⟩
      obtain ⟨d, step, immediate⟩ := exact.1 (some 4) inside (by simp [entry])
      obtain rfl : d = some 2 := Option.some.inj (step.symm.trans parent)
      have tailEdge : result.cfg.Edge (some 0) (some 4) := by
        have member : some 4 ∈ (result.cfg.succEdges (some 0)).map (·.dst) := by simp [dsts]
        obtain ⟨e, listed, dst⟩ := List.mem_map.mp member
        exact ⟨e, listed, dst⟩
      have around : Walk result.cfg.Edge result.cfg.entry (some 4) [some 4, some 0] :=
        Walk.step (entry ▸ Walk.start) tailEdge
      simpa using immediate.1.1 _ around

end Shady
