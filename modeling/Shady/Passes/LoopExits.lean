import Shady.Analysis.DomtreeTotal
import Shady.Analysis.LooptreeExact

/-!
# The exits of a loop

Model of `in_loop` and `gather_exiting_nodes` of `src/shady/passes/reconvergence_heuristics.c`.
The exits are collected below the head in the dominator tree, down to the first blocks that
are not in the loop. An edge out of the loop to a block that the head does not dominate is not
found.
-/

set_option autoImplicit false

namespace Shady
open Dominance Fallible

/-- The loop over the parents in `in_loop`. -/
def withinLoop.climb (entry : AbsId) : List (List CFNodeId) → Bool
  | [] => false
  | cfNodes :: above =>
      if cfNodes.length ≠ 1 then false
      else if cfNodes = [some entry] then true
      else withinLoop.climb entry above

/-- `in_loop` -/
def withinLoop (lt : LoopTree) (entry block : AbsId) : Except CfgError Bool := do
  let ltNode ← loopTreeLookup lt block
  match ltNode.parents with
  | [] => .error (.assertion "parent")
  | parents => .ok (withinLoop.climb entry parents)

/-- `gather_exiting_nodes`; a node without a block is read through NULL. -/
def gatherExitingNodes (lt : LoopTree) (tree : Domtree) (entry : AbsId) :
    Nat → List CFNodeId → CFNodeId → Except CfgError (List CFNodeId)
  | 0, _, _ => .error .outOfFuel
  | _ + 1, _, none => .error .nullPointer
  | fuel + 1, exitingNodes, some block => do
      let inside ← withinLoop lt entry block
      if inside then
        (tree.dominates (some block)).foldlM (gatherExitingNodes lt tree entry fuel) exitingNodes
      else return exitingNodes ++ [some block]

/-- `is_loop_entry` in `process_abstraction`: the block is the only head of its loop. -/
def isLoopEntry (lt : LoopTree) (node : AbsId) : Bool :=
  match loopTreeLookup lt node with
  | .ok leaf => leaf.parents.head? = some [some node]
  | .error _ => false

/-! ## The blocks of a loop -/

/-- The block is a leaf below the loop with this one head. -/
def LoopBlock (lt : LoopTree) (entry : AbsId) (n : CFNodeId) : Prop :=
  ∃ block leaf, n = some block ∧ loopTreeLookup lt block = .ok leaf ∧ [some entry] ∈ leaf.parents

/-- The heads of the loops inside of the loop that hold the block. -/
def innerLoops (entry : AbsId) (leaf : LTLeaf) : List (List CFNodeId) :=
  leaf.parents.takeWhile (· ≠ [some entry])

/-- No loop with several heads lies between the block and the loop. -/
def InSingleHeaded (lt : LoopTree) (entry : AbsId) (n : CFNodeId) : Prop :=
  ∀ block leaf, n = some block → loopTreeLookup lt block = .ok leaf →
    ∀ heads ∈ innerLoops entry leaf, heads.length = 1

theorem climb_iff (entry : AbsId) (parents : List (List CFNodeId)) :
    withinLoop.climb entry parents = true ↔ [some entry] ∈ parents ∧
      ∀ heads ∈ parents.takeWhile (· ≠ [some entry]), heads.length = 1 := by
  induction parents with
  | nil => simp [withinLoop.climb]
  | cons cfNodes above ih =>
      rw [withinLoop.climb]
      by_cases own : cfNodes = [some entry]
      · simp [own]
      · rw [List.takeWhile_cons_of_pos (by simpa using own), if_neg own]
        have elsewhere : [some entry] ∈ cfNodes :: above ↔ [some entry] ∈ above := by
          rw [List.mem_cons]
          exact or_iff_right (Ne.symm own)
        rw [elsewhere, List.forall_mem_cons]
        by_cases single : cfNodes.length = 1
        · rw [if_neg (not_not.mpr single), ih]
          exact and_congr_right fun _ => (and_iff_right single).symm
        · rw [if_pos single]
          exact iff_of_false Bool.false_ne_true fun both => single both.2.1

section Tree
variable {cfg : CFG} {lt : LoopTree}

mutual

/-- The parents of a leaf go on with those of the tree it is in. -/
theorem parents_suffix (parents : List (List CFNodeId)) : (tree : LTNode) →
    ∀ l ∈ tree.leaves parents, parents <:+ l.parents
  | .leaf depth cfNodes => by
      intro l member
      rw [LTNode.leaves, List.mem_singleton] at member
      rw [member]
  | .head depth cfNodes children => by
      intro l member
      rw [LTNode.leaves] at member
      exact (List.suffix_cons cfNodes parents).trans
        (parentsOfChildren_suffix (cfNodes :: parents) children l member)

theorem parentsOfChildren_suffix (parents : List (List CFNodeId)) : (children : List LTNode) →
    ∀ l ∈ leavesOfChildren parents children, parents <:+ l.parents
  | [] => by
      intro l member
      cases member
  | child :: children => by
      intro l member
      rw [leavesOfChildren, List.mem_append] at member
      cases member with
      | inl first => exact parents_suffix parents child l first
      | inr later => exact parentsOfChildren_suffix parents children l later

end

/-- A set of nodes of leaves below a loop, which is entered at the head of the loop only. -/
structure EnteredAt (cfg : CFG) (leaves : List LTLeaf) (h : CFNodeId) (part : CFNodeId → Prop) : Prop where
  below : ∀ v, part v → ∃ l ∈ leaves, l.cfNodes = [v] ∧ [h] ∈ l.parents
  entered : ∀ p v, part v → ¬ part p → cfg.Edge p v → v = h
  first : part cfg.entry → cfg.entry = h

theorem EnteredAt.mono {leaves leaves' : List LTLeaf} {h : CFNodeId} {part : CFNodeId → Prop}
    (enteredAt : EnteredAt cfg leaves h part) (more : ∀ l ∈ leaves, l ∈ leaves') :
    EnteredAt cfg leaves' h part where
  below := by
    intro v member
    obtain ⟨l, listed, single, loop⟩ := enteredAt.below v member
    exact ⟨l, more l listed, single, loop⟩
  entered := enteredAt.entered
  first := enteredAt.first

theorem enteredAt_child {depth depth' : Nat} {heads heads' : List CFNodeId} {children children' : List LTNode}
    {h : CFNodeId} (parents : List (List CFNodeId)) (listed : LTNode.head depth' heads' children' ∈ children)
    (exact : (LTNode.head depth' heads' children').Exact cfg) (level : ExactLevel cfg heads children)
    (own : [h] = heads') :
    EnteredAt cfg ((LTNode.head depth heads children).leaves parents) h
      (· ∈ (LTNode.head depth' heads' children').nodes) := by
  have entered : ∀ v, v ∈ heads' ↔ v ∈ (LTNode.head depth' heads' children').nodes ∧
      (v = cfg.entry ∨ ∃ p, p ∉ (LTNode.head depth' heads' children').nodes ∧ cfg.Edge p v) :=
    (level.entered _ listed).2
  refine ⟨fun v member => ?_, fun p v member outside taken => ?_, fun member => ?_⟩
  · rw [← leaves_nodes (heads :: parents)] at member
    obtain ⟨l, inChild, member⟩ := List.mem_flatMap.mp member
    obtain ⟨n, single⟩ := exact.single (heads :: parents) l inChild
    rw [single, List.mem_singleton] at member
    refine ⟨l, ?_, member ▸ single, ?_⟩
    · rw [LTNode.leaves, mem_leavesOfChildren]
      exact ⟨_, listed, inChild⟩
    · have suffix := parentsOfChildren_suffix (heads' :: heads :: parents) children' l inChild
      exact suffix.subset (own ▸ List.mem_cons_self)
  · have isHead := (entered v).mpr ⟨member, .inr ⟨p, outside, taken⟩⟩
    rw [← own] at isHead
    exact List.mem_singleton.mp isHead
  · have isHead := (entered cfg.entry).mpr ⟨member, .inl rfl⟩
    rw [← own] at isHead
    exact List.mem_singleton.mp isHead

/-- Every leaf below a loop with one head lies in such a set. -/
theorem exists_enteredAt {tree : LTNode} (exact : tree.Exact cfg) (h : CFNodeId) :
    ∀ parents, ∀ l ∈ tree.leaves parents, [h] ∈ l.parents → [h] ∈ parents ∨ [h] = tree.cfNodes ∨
      ∃ part, (∀ v ∈ l.cfNodes, part v) ∧ EnteredAt cfg (tree.leaves parents) h part := by
  induction exact with
  | leaf depth n =>
      intro parents l member loop
      rw [LTNode.leaves, List.mem_singleton] at member
      rw [member] at loop
      exact .inl loop
  | @head depth heads children below level ih =>
      intro parents l member loop
      rw [LTNode.leaves, mem_leavesOfChildren] at member
      obtain ⟨child, listed, inChild⟩ := member
      have more : ∀ l ∈ child.leaves (heads :: parents), l ∈ (LTNode.head depth heads children).leaves parents := by
        intro l member
        rw [LTNode.leaves, mem_leavesOfChildren]
        exact ⟨child, listed, member⟩
      rcases ih child listed (heads :: parents) l inChild loop with outer | own | ⟨part, inside, enteredAt⟩
      · cases List.mem_cons.mp outer with
        | inl same => exact .inr (.inl same)
        | inr further => exact .inl further
      · cases child with
        | leaf depth' cfNodes =>
            rw [LTNode.leaves, List.mem_singleton] at inChild
            rw [inChild] at loop
            cases List.mem_cons.mp loop with
            | inl same => exact .inr (.inl same)
            | inr further => exact .inl further
        | head depth' heads' children' =>
            refine .inr (.inr ⟨(· ∈ (LTNode.head depth' heads' children').nodes), fun v member => ?_, ?_⟩)
            · rw [← leaves_nodes (heads :: parents)]
              exact List.mem_flatMap.mpr ⟨l, inChild, member⟩
            · exact enteredAt_child parents listed (below _ listed) level own
      · exact .inr (.inr ⟨part, inside, enteredAt.mono more⟩)

theorem leaf_unique {leaves : List LTLeaf} (once : (leaves.flatMap (·.cfNodes)).Nodup) {l l' : LTLeaf}
    {n : CFNodeId} (member : l ∈ leaves) (member' : l' ∈ leaves) (single : l.cfNodes = [n])
    (single' : l'.cfNodes = [n]) : l = l' := by
  by_contra other
  have symmetric : Std.Symm (Function.onFun List.Disjoint fun l : LTLeaf => l.cfNodes) := ⟨fun _ _ apart => apart.symm⟩
  have apart : List.Disjoint l.cfNodes l'.cfNodes := (List.nodup_flatMap.mp once).2.forall member member' other
  rw [single, single'] at apart
  exact apart (List.mem_singleton_self n) (List.mem_singleton_self n)

/-- The blocks of a loop that hold one of them, as a set that is entered at the head. -/
theorem exists_part (exact : lt.Exact cfg) (wellFormed : cfg.WellFormed) (real : none ∉ cfg.contents)
    {entry : AbsId} {v : CFNodeId} (inside : LoopBlock lt entry v) (listed : v ∈ cfg.contents) :
    ∃ part : CFNodeId → Prop, part v ∧ (∀ u, part u → LoopBlock lt entry u) ∧
      (∀ p u, part u → ¬ part p → cfg.Edge p u → u = some entry) ∧ (part cfg.entry → cfg.entry = some entry) := by
  obtain ⟨⟨children, root⟩, exactRoot, nodes, leaves⟩ := exact
  obtain ⟨block, l, rfl, found, loop⟩ := inside
  obtain ⟨l', member, single, found'⟩ := leaves block listed
  obtain rfl := Except.ok.inj (found.symm.trans found')
  have once : ((lt.root.leaves []).flatMap (·.cfNodes)).Nodup := by
    rw [leaves_nodes]
    exact nodes.nodup_iff.mpr wellFormed.nodup
  rcases exists_enteredAt exactRoot (some entry) [] l member loop with outer | own | ⟨part, holds, enteredAt⟩
  · cases outer
  · rw [root] at own
    cases own
  · refine ⟨part, holds _ (single ▸ List.mem_singleton_self _), fun u insideU => ?_, enteredAt.entered, enteredAt.first⟩
    obtain ⟨lu, memberU, singleU, loopU⟩ := enteredAt.below u insideU
    have listedU : u ∈ cfg.contents := by
      rw [← nodes.mem_iff, ← leaves_nodes []]
      exact List.mem_flatMap.mpr ⟨lu, memberU, singleU ▸ List.mem_singleton_self u⟩
    cases u with
    | none => exact absurd listedU real
    | some blockU =>
        obtain ⟨lu', memberU', singleU', foundU⟩ := leaves blockU listedU
        exact ⟨blockU, lu', rfl, foundU, leaf_unique once memberU memberU' singleU singleU' ▸ loopU⟩

end Tree

/-! ## Gathering -/

/-- The answer of `in_loop` for a block. -/
def Inside (lt : LoopTree) (entry : AbsId) (n : CFNodeId) : Prop :=
  LoopBlock lt entry n ∧ InSingleHeaded lt entry n

theorem withinLoop_total {cfg : CFG} {lt : LoopTree} (exact : lt.Exact cfg) (entry : AbsId) {block : AbsId}
    (listed : some block ∈ cfg.contents) :
    ∃ answer, withinLoop lt entry block = .ok answer ∧ (answer = true ↔ Inside lt entry (some block)) := by
  obtain ⟨⟨children, root⟩, -, -, leaves⟩ := exact
  obtain ⟨l, member, -, found⟩ := leaves block listed
  refine ⟨withinLoop.climb entry l.parents, ?_, (climb_iff entry l.parents).trans ?_⟩
  · rw [root, LTNode.leaves] at member
    have nonempty := (parentsOfChildren_suffix [[]] children l member).subset List.mem_cons_self
    unfold withinLoop
    rw [found]
    cases parents : l.parents with
    | nil =>
        rw [parents] at nonempty
        cases nonempty
    | cons first rest =>
        change (match l.parents with
          | [] => Except.error (CfgError.assertion "parent")
          | parents => .ok (withinLoop.climb entry parents)) = _
        rw [parents]
  · refine and_congr ⟨fun loop => ⟨block, l, rfl, found, loop⟩, fun loop => ?_⟩
      ⟨fun single block' l' same found' => ?_, fun single => single block l rfl found⟩
    · obtain ⟨block', l', same, found', loop⟩ := loop
      cases same
      obtain rfl := Except.ok.inj (found.symm.trans found')
      exact loop
    · cases same
      obtain rfl := Except.ok.inj (found.symm.trans found')
      exact single

section Gather
variable {cfg : CFG} {rpo : RpoState} {tree : Domtree} {lt : LoopTree} {edge : CFNodeId → CFNodeId → Prop}
  {entry : AbsId}

/-- The way down the dominator tree that stays in the loop before its last block. -/
def Descends (lt : LoopTree) (tree : Domtree) (entry : AbsId) : CFNodeId → CFNodeId → Prop :=
  Relation.ReflTransGen fun p c => Inside lt entry p ∧ tree.idom c = some p

/-- Where the ways down from some blocks leave the loop. -/
def LeavesBelow (lt : LoopTree) (tree : Domtree) (entry : AbsId) (from_ : CFNodeId → Prop) (x : CFNodeId) : Prop :=
  (∃ n, from_ n ∧ Descends lt tree entry n x) ∧ ¬ Inside lt entry x

/-- What the recursion needs of the dominator tree. -/
structure Descent (cfg : CFG) (rpo : RpoState) (tree : Domtree) : Prop where
  real : none ∉ cfg.contents
  children : ∀ a c, c ∈ tree.dominates a ↔ c ∈ cfg.contents ∧ tree.idom c = some a
  listed : ∀ c p, tree.idom c = some p → c ∈ cfg.contents
  lower : ∀ c p, tree.idom c = some p → rpo.rank p < rpo.rank c
  rank_lt : ∀ n ∈ cfg.contents, rpo.rank n < cfg.size

theorem gather_children {fuel : Nat} (children : List CFNodeId)
    (each : ∀ c ∈ children, ∀ exiting, ∃ new, gatherExitingNodes lt tree entry fuel exiting c = .ok (exiting ++ new) ∧
      ∀ x, x ∈ new ↔ LeavesBelow lt tree entry (· = c) x) :
    ∀ exiting, ∃ new, children.foldlM (gatherExitingNodes lt tree entry fuel) exiting = .ok (exiting ++ new) ∧
      ∀ x, x ∈ new ↔ LeavesBelow lt tree entry (· ∈ children) x := by
  induction children with
  | nil =>
      intro exiting
      refine ⟨[], by rw [List.append_nil]; rfl, fun x => iff_of_false List.not_mem_nil ?_⟩
      intro leaves
      obtain ⟨⟨n, member, -⟩, -⟩ := leaves
      cases member
  | cons c children ih =>
      intro exiting
      obtain ⟨new, ran, found⟩ := each c List.mem_cons_self exiting
      obtain ⟨more, ranRest, foundRest⟩ := ih (fun c member => each c (List.mem_cons_of_mem _ member)) (exiting ++ new)
      refine ⟨new ++ more, ?_, fun x => ?_⟩
      · rw [List.foldlM_cons, ran, ← List.append_assoc]
        exact ranRest
      · rw [List.mem_append, found, foundRest, LeavesBelow, LeavesBelow, LeavesBelow, ← or_and_right]
        simp only [List.mem_cons, or_and_right, exists_or, exists_eq_left]

/-- The recursion ends with the first blocks outside of the loop on every way down. -/
theorem gather_spec (exact : lt.Exact cfg) (descent : Descent cfg rpo tree) (fuel : Nat) :
    ∀ n ∈ cfg.contents, cfg.size - rpo.rank n ≤ fuel → ∀ exiting, ∃ new,
      gatherExitingNodes lt tree entry fuel exiting n = .ok (exiting ++ new) ∧
        ∀ x, x ∈ new ↔ LeavesBelow lt tree entry (· = n) x := by
  induction fuel with
  | zero =>
      intro n listed enough
      have small := descent.rank_lt n listed
      omega
  | succ fuel ih =>
      intro n listed enough exiting
      cases n with
      | none => exact absurd listed descent.real
      | some block =>
          obtain ⟨answer, asked, iff⟩ := withinLoop_total exact entry listed
          rw [gatherExitingNodes, asked]
          cases answer with
          | false =>
              have outside : ¬ Inside lt entry (some block) := fun inside => Bool.false_ne_true (iff.mpr inside)
              refine ⟨[some block], rfl, fun x => List.mem_singleton.trans ⟨fun same => ?_, fun leaves => ?_⟩⟩
              · rw [same]
                exact ⟨⟨_, rfl, Relation.ReflTransGen.refl⟩, outside⟩
              · obtain ⟨⟨n, rfl, down⟩, -⟩ := leaves
                cases Relation.ReflTransGen.cases_head down with
                | inl same => exact same.symm
                | inr further =>
                    obtain ⟨c, step, -⟩ := further
                    exact absurd step.1 outside
          | true =>
              have inside : Inside lt entry (some block) := iff.mp rfl
              obtain ⟨new, ran, found⟩ := gather_children (tree.dominates (some block)) (fun c member => by
                obtain ⟨listedC, above⟩ := (descent.children _ c).mp member
                have less := descent.lower c _ above
                exact ih c listedC (by omega)) exiting
              refine ⟨new, ran, fun x => (found x).trans (and_congr_left fun outside => ?_)⟩
              constructor
              · intro down
                obtain ⟨c, member, down⟩ := down
                exact ⟨_, rfl, Relation.ReflTransGen.head ⟨inside, ((descent.children _ c).mp member).2⟩ down⟩
              · intro down
                obtain ⟨n, rfl, down⟩ := down
                cases Relation.ReflTransGen.cases_head down with
                | inl same => exact absurd (same ▸ inside) outside
                | inr further =>
                    obtain ⟨c, step, down⟩ := further
                    exact ⟨c, (descent.children _ c).mpr ⟨descent.listed c _ step.2, step.2⟩, down⟩

end Gather

/-! ## Which edges are found -/

section Exits
variable (result : AnalysedCFG) (lt : LoopTree) (entry : AbsId)

/-- The blocks that the head dominates. Dominators are computed in the graph where a block with a
    tail edge is only entered from its first predecessor. -/
def BelowHead (n : CFNodeId) : Prop :=
  Dominates (result.cfg.trimmed result.rpo).Edge result.cfg.entry (some entry) n

/-- The blocks that the head dominates and that strictly dominate `t`. -/
def BetweenHeadAnd (t d : CFNodeId) : Prop :=
  BelowHead result entry d ∧ StrictlyDominates (result.cfg.trimmed result.rpo).Edge result.cfg.entry d t

/-- The head dominates the block that is entered, no loop with several heads is in between,
    and if the block is the tail of a construct, nothing else that is outside of the loop. -/
structure ExitFound (t : CFNodeId) : Prop where
  dominated : BelowHead result entry t
  single : ∀ d, BetweenHeadAnd result entry t d → InSingleHeaded lt entry d
  tail : (∃ e ∈ result.cfg.predEdges t, e.type = .structuredTailEdge) →
    ∀ d, BetweenHeadAnd result entry t d → LoopBlock lt entry d

/-- The edge leaves the loop. -/
def ExitEdge (b t : CFNodeId) : Prop :=
  result.cfg.Edge b t ∧ LoopBlock lt entry b ∧ ¬ LoopBlock lt entry t

/-- Every edge out of the loop goes to a node of the list, so that a path from the head that
    meets none of them stays in the loop. -/
structure ExitsComplete (exits : List CFNodeId) : Prop where
  edges : ∀ b t, ExitEdge result lt entry b t → t ∈ exits
  paths : ∀ n, Relation.ReflTransGen (fun b t => result.cfg.Edge b t ∧ t ∉ exits) (some entry) n →
    LoopBlock lt entry n

variable {result lt entry}

theorem exitsComplete_of_edges {exits : List CFNodeId} (head : LoopBlock lt entry (some entry))
    (edges : ∀ b t, ExitEdge result lt entry b t → t ∈ exits) : ExitsComplete result lt entry exits := by
  refine ⟨edges, fun n path => ?_⟩
  induction path with
  | refl => exact head
  | @tail b t _ step ih =>
      by_contra outside
      exact step.2 (edges b t ⟨step.1, ih, outside⟩)

theorem loopBlock_of_isLoopEntry (isEntry : isLoopEntry lt entry = true) : LoopBlock lt entry (some entry) := by
  unfold isLoopEntry at isEntry
  cases found : loopTreeLookup lt entry with
  | error e =>
      rw [found] at isEntry
      cases isEntry
  | ok leaf =>
      rw [found] at isEntry
      exact ⟨entry, leaf, rfl, found, List.mem_of_mem_head? (of_decide_eq_true isEntry)⟩

theorem mem_dominatesLists (rpo : RpoState) (idom : CFNodeId → Option CFNodeId) (a c : CFNodeId) :
    c ∈ dominatesLists rpo idom a ↔ c ∈ rpo.rpo ∧ idom c = some a := by
  have fold : ∀ f : (CFNodeId → List CFNodeId) → CFNodeId → CFNodeId → List CFNodeId,
      (∀ lists n, c ∈ f lists n a ↔ c ∈ lists a ∨ c = n ∧ idom n = some a) →
        ∀ (nodes : List CFNodeId) (lists : CFNodeId → List CFNodeId),
          c ∈ nodes.foldl f lists a ↔ c ∈ lists a ∨ c ∈ nodes ∧ idom c = some a := by
    intro f step nodes
    induction nodes with
    | nil => simp
    | cons n nodes ih =>
        intro lists
        rw [List.foldl_cons, ih, step, List.mem_cons, or_assoc, or_and_right]
        exact or_congr_right (or_congr_left (and_congr_right fun same => by rw [same]))
  rw [dominatesLists]
  refine (fold _ (fun lists n => ?_) rpo.rpo fun _ => []).trans (or_iff_right List.not_mem_nil)
  cases above : idom n with
  | none => simp
  | some parent =>
      simp only [BuildState.mem_appendAt, Option.some.injEq]
      grind

theorem descent_of_computeDomtree (result : AnalysedCFG) (numbers : result.rpo.Numbers result.cfg) (wellFormed : result.cfg.WellFormed)
    (real : none ∉ result.cfg.contents)
    (invariant : IdomInvariant (result.cfg.trimmed result.rpo) result.rpo result.tree.idom)
    (lists : result.tree.dominates = dominatesLists result.rpo result.tree.idom) :
    Descent result.cfg result.rpo result.tree where
  real := real
  children := by
    intro a c
    rw [lists, mem_dominatesLists, numbers.listed]
  listed := by
    intro c p above
    by_contra unlisted
    rw [invariant.outside c unlisted] at above
    cases above
  lower := invariant.tree.lower
  rank_lt := fun n listed => numbers.rank_lt wellFormed listed

/-- An edge out of a loop leads to a gathered node if and only if `ExitFound` holds of it. -/
theorem exit_mem_iff (exact : lt.Exact result.cfg) (wellFormed : result.cfg.WellFormed)
    (real : none ∉ result.cfg.contents) (numbers : result.rpo.Numbers result.cfg)
    (invariant : IdomInvariant (result.cfg.trimmed result.rpo) result.rpo result.tree.idom)
    (idomExact : IdomExact (result.cfg.trimmed result.rpo) result.tree.idom)
    {b t : CFNodeId} (leaves : ExitEdge result lt entry b t) :
    LeavesBelow lt result.tree entry (· = some entry) t ↔ ExitFound result lt entry t := by
  obtain ⟨taken, insideB, outsideT⟩ := leaves
  have ends := wellFormed.edge_mem taken
  have reaches := (trimmed_numbers numbers wellFormed).reachable (trimmed_wellFormed wellFormed)
  have reachableT := reaches t ends.2
  have above_iff : ∀ {v d : CFNodeId}, Reachable (result.cfg.trimmed result.rpo).Edge result.cfg.entry v →
      (Above result.tree.idom v d ↔ Dominates (result.cfg.trimmed result.rpo).Edge result.cfg.entry d v) :=
    fun reachable => (idomExact _ reachable _).symm
  have reachableOf : ∀ {d : CFNodeId}, Dominates (result.cfg.trimmed result.rpo).Edge result.cfg.entry d t →
      Reachable (result.cfg.trimmed result.rpo).Edge result.cfg.entry d := by
    intro d dominates
    obtain ⟨visited, walk⟩ := reachableT
    exact walk.mem_reachable (dominates visited walk)
  have down : LeavesBelow lt result.tree entry (· = some entry) t ↔ BelowHead result entry t ∧
      ∀ d, BetweenHeadAnd result entry t d → Inside lt entry d := by
    have outside : ¬ Inside lt entry t := fun inside => outsideT inside.1
    rw [LeavesBelow, and_iff_left outside, exists_eq_left, Descends, invariant.tree.down_iff, above_iff reachableT]
    refine and_congr_right fun _ => ⟨fun all d between => ?_, fun all d up low other => ?_⟩
    · refine all d ((above_iff reachableT).mpr between.2.1) ?_ between.2.2
      exact (above_iff (reachableOf between.2.1)).mpr between.1
    · have dominates := (above_iff reachableT).mp up
      exact all d ⟨(above_iff (reachableOf dominates)).mp low, dominates, other⟩
  rw [down]
  constructor
  · intro found
    exact ⟨found.1, fun d between => (found.2 d between).2, fun _ d between => (found.2 d between).1⟩
  · intro found
    refine ⟨found.dominated, fun d between => ⟨?_, found.single d between⟩⟩
    by_cases isTail : ∃ e ∈ result.cfg.predEdges t, e.type = .structuredTailEdge
    · exact found.tail isTail d between
    · -- the edge is one of the graph that dominators are computed in
      have kept : (result.cfg.trimmed result.rpo).Edge b t := by
        have plain : structuredIdom result.cfg t = none := by
          by_cases inner : t ≠ result.cfg.entry
          · exact (structuredIdom_none_iff t ends.2 inner).mpr fun e member isTailEdge =>
              isTail ⟨e, member, isTailEdge⟩
          · rw [structuredIdom, if_neg fun both => inner both.2]
        rw [(trimmed_wellFormed wellFormed).edge_iff_pred]
        change ∃ e ∈ trimmedPreds result.cfg result.rpo t, e.src = b
        rw [trimmedPreds, if_pos plain]
        exact (wellFormed.edge_iff_pred b t).mp taken
      obtain ⟨part, insidePart, blocks, entered, first⟩ := exists_part exact wellFormed real insideB ends.1
      refine blocks d (between_of_entered (fun p v insideV outsideP follows => entered p v insideV outsideP ?_)
        first insidePart (reaches b ends.1) between.1 (between.2.1.of_edge between.2.2 kept))
      obtain ⟨e, member, src⟩ := ((trimmed_wellFormed wellFormed).edge_iff_pred p v).mp follows
      obtain ⟨e', listed, sameSrc, -⟩ := mem_trimmedPreds member
      exact (wellFormed.edge_iff_pred p v).mpr ⟨e', listed, sameSrc.trans src⟩

end Exits

/-- A loop of one block on the only way to the return. -/
def straightLoop : Function := ⟨0, [
  (0, ⟨true, [], some (.jump ⟨1, []⟩)⟩),
  (1, ⟨false, [], some (.branch ⟨1, []⟩ ⟨2, []⟩)⟩),
  (2, ⟨false, [], some .fnRet⟩)]⟩

/-- A loop of one block, which the function can go around. -/
def aroundLoop : Function := ⟨0, [
  (0, ⟨true, [], some (.branch ⟨1, []⟩ ⟨2, []⟩)⟩),
  (1, ⟨false, [], some (.branch ⟨1, []⟩ ⟨2, []⟩)⟩),
  (2, ⟨false, [], some .fnRet⟩)]⟩

end Shady
