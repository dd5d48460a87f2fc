import Shady.Analysis.DomtreeExact

/-!
# The dominator tree is always found

A node with a tail edge keeps its first parent, which need not dominate it. The loop still
ends: it computes the dominator tree of a graph in which such a node can only be entered
from its first parent.
-/

set_option autoImplicit false

namespace Shady
open Dominance Fallible

section Trimmed
variable (cfg : CFG) (rpo : RpoState)

/-- The edges into a node that the loop goes by. -/
def trimmedPreds (n : CFNodeId) : List CFEdge :=
  if structuredIdom cfg n = none then cfg.predEdges n
  else ((firstEarlierEdge cfg rpo n).map fun e => { e with type := .structuredTailEdge }).toList

/-- The graph without the edges that the loop does not look at. -/
def CFG.trimmed : CFG where
  entry := cfg.entry
  contents := cfg.contents
  succEdges n := (cfg.contents.flatMap (trimmedPreds cfg rpo)).filter fun e => e.src = n
  predEdges := trimmedPreds cfg rpo

variable {cfg rpo}

theorem mem_trimmedPreds {n : CFNodeId} {e : CFEdge} (member : e ∈ trimmedPreds cfg rpo n) :
    ∃ e' ∈ cfg.predEdges n, e'.src = e.src ∧ e'.dst = e.dst := by
  unfold trimmedPreds at member
  split_ifs at member with plain
  · exact ⟨e, member, rfl, rfl⟩
  · obtain ⟨first, found, rfl⟩ := Option.map_eq_some_iff.mp (Option.mem_toList.mp member)
    exact ⟨first, List.mem_of_find?_eq_some found, rfl, rfl⟩

theorem trimmed_wellFormed (wellFormed : cfg.WellFormed) : (cfg.trimmed rpo).WellFormed := by
  have ends : ∀ {n e}, e ∈ trimmedPreds cfg rpo n → e.dst = n ∧ e.src ∈ cfg.contents ∧ n ∈ cfg.contents := by
    intro n e member
    obtain ⟨e', listed, sameSrc, sameDst⟩ := mem_trimmedPreds member
    have leads := wellFormed.pred_dst n e' listed
    have inside := wellFormed.edge_mem ((wellFormed.edge_iff_pred e'.src n).mpr ⟨e', listed, rfl⟩)
    exact ⟨sameDst.symm.trans leads, sameSrc ▸ inside.1, inside.2⟩
  have succ : ∀ n e, e ∈ (cfg.trimmed rpo).succEdges n ↔ e ∈ trimmedPreds cfg rpo e.dst ∧ e.src = n := by
    intro n e
    simp only [CFG.trimmed, List.mem_filter, List.mem_flatMap, decide_eq_true_eq, and_congr_left_iff]
    intro _
    constructor
    · intro listed
      obtain ⟨m, -, member⟩ := listed
      rw [(ends member).1]
      exact member
    · exact fun member => ⟨e.dst, (ends member).2.2, member⟩
  exact
    { nodup := wellFormed.nodup
      entry_mem := wellFormed.entry_mem
      succ_src := fun n e member => ((succ n e).mp member).2
      pred_dst := fun n e member => (ends member).1
      succ_mem := by
        intro n e member
        obtain ⟨listed, from'⟩ := (succ n e).mp member
        exact ⟨from' ▸ (ends listed).2.1, (ends listed).2.2⟩
      listed := fun e => (succ e.src e).trans (and_iff_left rfl) }

/-- The trimmed graph keeps the nodes with a tail edge, and their first parents. -/
theorem trimmed_frozen (numbers : rpo.Numbers cfg) (wellFormed : cfg.WellFormed) (n : CFNodeId) :
    structuredIdom (cfg.trimmed rpo) n = none ↔ structuredIdom cfg n = none := by
  by_cases inner : n ∈ cfg.contents ∧ n ≠ cfg.entry
  · have inTrimmed : structuredIdom (cfg.trimmed rpo) n = none ↔
        ∀ e ∈ (cfg.trimmed rpo).predEdges n, e.type ≠ .structuredTailEdge :=
      structuredIdom_none_iff n inner.1 inner.2
    rw [inTrimmed]
    change (∀ e ∈ trimmedPreds cfg rpo n, _) ↔ _
    unfold trimmedPreds
    split_ifs with plain
    · exact iff_of_true ((structuredIdom_none_iff n inner.1 inner.2).mp plain) plain
    · refine iff_of_false ?_ plain
      obtain ⟨p, first⟩ := firstIdom_total numbers wellFormed inner.1 inner.2
      obtain ⟨-, -, e, -, found, -⟩ := firstIdom_some n p first
      rw [found]
      exact fun none => none _ (List.mem_singleton.mpr rfl) rfl
  · have outer : ∀ graph : CFG, graph.contents = cfg.contents → graph.entry = cfg.entry →
        structuredIdom graph n = none := by
      intro graph sameContents sameEntry
      rw [structuredIdom, sameContents, sameEntry, if_neg inner]
    exact iff_of_true (outer _ rfl rfl) (outer _ rfl rfl)

theorem trimmed_first (n : CFNodeId) : firstIdom (cfg.trimmed rpo) rpo n = firstIdom cfg rpo n := by
  have same : (firstEarlierEdge (cfg.trimmed rpo) rpo n).map (·.src) = (firstEarlierEdge cfg rpo n).map (·.src) := by
    by_cases plain : structuredIdom cfg n = none
    · have preds : (cfg.trimmed rpo).predEdges n = cfg.predEdges n := if_pos plain
      rw [firstEarlierEdge, firstEarlierEdge, preds]
    · have preds : (cfg.trimmed rpo).predEdges n =
          ((firstEarlierEdge cfg rpo n).map fun e => { e with type := .structuredTailEdge }).toList :=
        if_neg plain
      rw [firstEarlierEdge, preds]
      cases found : firstEarlierEdge cfg rpo n with
      | none => rfl
      | some e =>
          have earlier := List.find?_some found
          simp only [Option.map_some, Option.toList_some, List.find?_cons, earlier]
  exact congrArg (fun first => if n ∈ cfg.contents ∧ n ≠ cfg.entry then first else none) same

theorem trimmed_numbers (numbers : rpo.Numbers cfg) (wellFormed : cfg.WellFormed) :
    rpo.Numbers (cfg.trimmed rpo) where
  indexed := numbers.indexed
  listed := numbers.listed
  nodup := numbers.nodup
  entry := numbers.entry
  parent := by
    intro v inside nonroot
    obtain ⟨p, first⟩ := firstIdom_total numbers wellFormed inside nonroot
    rw [← trimmed_first] at first
    obtain ⟨-, -, e, member, -, rfl, less⟩ := firstIdom_some v p first
    exact ⟨e.src, ((trimmed_wellFormed wellFormed).edge_iff_pred e.src v).mpr ⟨e, member, rfl⟩, less⟩

/-- In a numbered graph every node can be reached through earlier ones. -/
theorem RpoState.Numbers.reachable (numbers : rpo.Numbers cfg) (wellFormed : cfg.WellFormed) :
    ∀ v ∈ cfg.contents, Reachable cfg.Edge cfg.entry v := by
  intro v
  induction rank : rpo.rank v using Nat.strong_induction_on generalizing v with
  | _ k ih =>
      intro inside
      by_cases isEntry : v = cfg.entry
      · exact isEntry ▸ ⟨_, Walk.start⟩
      · obtain ⟨p, taken, less⟩ := numbers.parent v inside isEntry
        obtain ⟨visited, walk⟩ := ih (rpo.rank p) (rank ▸ less) p rfl (wellFormed.edge_mem taken).1
        exact ⟨_, walk.step taken⟩

theorem trimmed_tails (numbers : rpo.Numbers cfg) (wellFormed : cfg.WellFormed) :
    TailsEnteredFromDominator (cfg.trimmed rpo) rpo := by
  intro n inside nonroot tailEdge first found e member
  have structured : structuredIdom cfg n ≠ none := by
    intro plain
    rw [← trimmed_frozen numbers wellFormed, structuredIdom_none_iff n inside nonroot] at plain
    obtain ⟨tail, listed, isTail⟩ := tailEdge
    exact plain tail listed isTail
  have alone : ∀ e ∈ trimmedPreds cfg rpo n, ∀ e' ∈ trimmedPreds cfg rpo n, e = e' := by
    unfold trimmedPreds
    rw [if_neg structured]
    intro e member e' member'
    rw [Option.mem_toList] at member member'
    exact Option.some.inj (member.symm.trans member')
  rw [alone e member first (List.mem_of_find?_eq_some found)]
  exact fun visited walk => walk.self_mem

theorem trimmed_updateIdom (numbers : rpo.Numbers cfg) (wellFormed : cfg.WellFormed)
    (current : (CFNodeId → Option CFNodeId) × Bool) (n : CFNodeId) :
    updateIdom (cfg.trimmed rpo) rpo current n = updateIdom cfg rpo current n := by
  have frozen := not_congr (trimmed_frozen numbers wellFormed n)
  unfold updateIdom
  by_cases skipped : n = cfg.entry ∨ structuredIdom cfg n ≠ none
  · have skipped' : n = (cfg.trimmed rpo).entry ∨ structuredIdom (cfg.trimmed rpo) n ≠ none :=
      skipped.imp_right frozen.mpr
    rw [if_pos skipped, if_pos skipped']
  · have kept : ¬ (n = (cfg.trimmed rpo).entry ∨ structuredIdom (cfg.trimmed rpo) n ≠ none) :=
      fun other => skipped (other.imp_right frozen.mp)
    have plain : structuredIdom cfg n = none := not_not.mp fun structured => skipped (.inr structured)
    have preds : (cfg.trimmed rpo).predEdges n = cfg.predEdges n := if_pos plain
    rw [if_neg skipped, if_neg kept, preds]
    rfl

theorem trimmed_iterateIdom (numbers : rpo.Numbers cfg) (wellFormed : cfg.WellFormed) (fuel : Nat) :
    ∀ idom, iterateIdom (cfg.trimmed rpo) rpo fuel idom = iterateIdom cfg rpo fuel idom := by
  induction fuel with
  | zero => exact fun _ => rfl
  | succ fuel ih =>
      intro idom
      have turn : updateIdom (cfg.trimmed rpo) rpo = updateIdom cfg rpo :=
        funext fun current => funext (trimmed_updateIdom numbers wellFormed current)
      have rest : iterateIdom (cfg.trimmed rpo) rpo fuel = iterateIdom cfg rpo fuel := funext ih
      unfold iterateIdom
      rw [turn, rest]
      rfl

/-- The computation ends with some tree, whatever the tails are entered from. -/
theorem computeDomtree_total (numbers : rpo.Numbers cfg) (wellFormed : cfg.WellFormed) :
    ∃ tree, computeDomtree cfg rpo = .ok tree := by
  have numbers' := trimmed_numbers numbers wellFormed
  have wellFormed' : (cfg.trimmed rpo).WellFormed := trimmed_wellFormed wellFormed
  obtain ⟨tree, ran, -⟩ := computeDomtree_exact numbers' wellFormed'
    (numbers'.reachable wellFormed') (trimmed_tails numbers wellFormed)
  unfold computeDomtree at ran ⊢
  rw [checkFirstIdom_ok numbers wellFormed cfg.contents fun _ member => member]
  obtain ⟨_, -, ran⟩ := bind_eq_ok.mp ran
  obtain ⟨idom, iterated, -⟩ := bind_eq_ok.mp ran
  have first : firstIdom (cfg.trimmed rpo) rpo = firstIdom cfg rpo := funext trimmed_first
  rw [trimmed_iterateIdom numbers wellFormed, first] at iterated
  have iterated' : iterateIdom cfg rpo (cfg.size + 1) (firstIdom cfg rpo) = .ok idom := iterated
  refine ⟨⟨idom, structuredIdom cfg, dominatesLists rpo idom⟩, ?_⟩
  rw [iterated']
  rfl

/-- The tree that is found is the dominator tree of the trimmed graph. -/
theorem computeDomtree_trimmed (numbers : rpo.Numbers cfg) (wellFormed : cfg.WellFormed) {tree : Domtree}
    (ran : computeDomtree cfg rpo = .ok tree) :
    IdomInvariant (cfg.trimmed rpo) rpo tree.idom ∧ IdomExact (cfg.trimmed rpo) tree.idom ∧
      tree.dominates = dominatesLists rpo tree.idom := by
  have numbers' := trimmed_numbers numbers wellFormed
  have wellFormed' : (cfg.trimmed rpo).WellFormed := trimmed_wellFormed wellFormed
  have reachable := numbers'.reachable wellFormed'
  have start := firstIdom_invariant numbers' wellFormed' reachable
  have nothing : Within (cfg.trimmed rpo).Edge (cfg.trimmed rpo).entry (firstIdom (cfg.trimmed rpo) rpo)
      fun _ => 0 := by
    intro v a _ visited walk short
    obtain ⟨rest, rfl⟩ := walk.head_eq
    exact absurd short (Nat.not_succ_le_zero _)
  obtain ⟨idom, iterated, kept, exact⟩ := iterateIdom_exact numbers' wellFormed' reachable
    (trimmed_tails numbers wellFormed) cfg.size 0 _ start nothing (Nat.le_add_left _ _)
  have first : firstIdom (cfg.trimmed rpo) rpo = firstIdom cfg rpo := funext trimmed_first
  rw [trimmed_iterateIdom numbers wellFormed, first] at iterated
  unfold computeDomtree at ran
  obtain ⟨_, -, ran⟩ := bind_eq_ok.mp ran
  obtain ⟨idom', iterated', ran⟩ := bind_eq_ok.mp ran
  obtain rfl := pure_eq_ok.mp ran
  obtain rfl := Except.ok.inj (iterated.symm.trans iterated')
  exact ⟨kept, exact, rfl⟩

end Trimmed

/-- A forward graph that was built is always analysed. -/
theorem newCfg_total {function : Function} {entry : AbsId} {config : CFGBuildConfig} {cfg : CFG}
    (forward : config.flipped = false) (built : buildCfg function entry config = .ok cfg) :
    ∃ rpo tree, newCfg function entry config = .ok ⟨cfg, rpo, tree⟩ := by
  obtain ⟨wellFormed, reachable⟩ := buildCfg_spec built
  obtain ⟨rpo, numbered, numbers⟩ := computeRpo_numbers wellFormed reachable
  obtain ⟨tree, found⟩ := computeDomtree_total numbers wellFormed
  exact ⟨rpo, tree, (newCfg_forward forward built numbered tree).mpr found⟩

end Shady
