import Shady.Analysis.Looptree
import Shady.Library.Tarjan

/-!
# One walk over a level of the loop tree

`walk_scc` follows the edges that do not lead to a node marked as a head. A walk
from a node visits what it reaches that was not visited before, and the children
that it adds to the parent stand for the strongly connected components among the
visited nodes that have left the stack.
-/

set_option autoImplicit false

namespace Shady
open Dominance Fallible Tarjan

/-- The edges that `walk_scc` follows. -/
def WalkEdge (cfg : CFG) (isHead : CFNodeId → Bool) (p v : CFNodeId) : Prop :=
  cfg.Edge p v ∧ isHead v = false

/-- The search that the flags and numbers of the builder stand for. -/
def LoopTreeBuilder.search (ltb : LoopTreeBuilder) : Search CFNodeId where
  visited := fun v => ltb.inSet v = true
  stack := ltb.stack
  dfs := ltb.dfs
  low := ltb.lowLink
  counter := ltb.counter

/-- Whether a node is a head of a component: the entry, or entered from outside. -/
def entersScc (cfg : CFG) (scc : List CFNodeId) (n : CFNodeId) : Bool :=
  cfg.entry = n ∨ ∃ e ∈ cfg.predEdges n, e.src ∉ scc

/-- The child that stands for a component. -/
def childOf (cfg : CFG) (isHead : CFNodeId → Bool) (scc : List CFNodeId) : NewLTNode where
  type := if scc.length = 1 ∧ ∀ n ∈ scc, ∀ e ∈ cfg.succEdges n, isHead e.dst = true ∨ e.dst ≠ n
    then .leaf else .head
  cfNodes := scc.filter (entersScc cfg scc)

/-- The flags `on_stack` mark the nodes of the stack. -/
def LoopTreeBuilder.Marked (ltb : LoopTreeBuilder) : Prop :=
  ∀ v, ltb.onStack v = true ↔ v ∈ ltb.stack

/-- The components that a piece of a walk, from `before` to `after`, has completed: they
hold what it has visited and not left on the stack. -/
structure Completes (cfg : CFG) (before after : LoopTreeBuilder) (sccs : List (List CFNodeId)) :
    Prop where
  children : after.children = before.children ++ sccs.map (childOf cfg before.isHead)
  nonempty : ∀ scc ∈ sccs, scc ≠ []
  component : ∀ scc ∈ sccs, IsComponent (WalkEdge cfg before.isHead) (· ∈ scc)
  disjoint : sccs.flatten.Nodup
  emitted : ∀ v, v ∈ sccs.flatten ↔
    after.inSet v = true ∧ before.inSet v = false ∧ v ∉ after.stack

/-! ## Closing a component -/

section Close
variable {cfg : CFG}

theorem enteredFromOutside_eq (wellFormed : cfg.WellFormed) (scc : List CFNodeId) (n : CFNodeId) :
    enteredFromOutside scc n (cfg.predEdges n) =
      .ok (decide (∃ e ∈ cfg.predEdges n, e.src ∉ scc)) := by
  have dsts := wellFormed.pred_dst n
  generalize cfg.predEdges n = edges at dsts
  induction edges with
  | nil => simp [enteredFromOutside]
  | cons e edges ih =>
      have first := dsts e List.mem_cons_self
      unfold enteredFromOutside
      rw [if_neg (by simpa using first), ih fun e member => dsts e (List.mem_cons_of_mem _ member)]
      by_cases outside : e.src ∉ scc
      · rw [if_pos outside]
        simp [outside]
      · rw [if_neg outside]
        simp [not_not.mp outside]

theorem collectHeads_eq (wellFormed : cfg.WellFormed) (scc nodes : List CFNodeId) :
    ∀ heads, nodes.foldlM (collectHead cfg scc) heads =
      .ok (heads ++ nodes.filter (entersScc cfg scc)) := by
  induction nodes with
  | nil => intro heads; simp; rfl
  | cons n nodes ih =>
      intro heads
      rw [List.foldlM_cons, bind_eq_ok]
      have step : collectHead cfg scc heads n =
          .ok (if entersScc cfg scc n then heads ++ [n] else heads) := by
        unfold collectHead
        by_cases isEntry : cfg.entry = n
        · simp [isEntry, entersScc]
        · rw [if_neg isEntry, enteredFromOutside_eq wellFormed]
          by_cases outside : ∃ e ∈ cfg.predEdges n, e.src ∉ scc
          · simp only [entersScc, isEntry, outside, decide_true, or_true, bind, Except.bind,
              if_true]
            rfl
          · simp only [entersScc, isEntry, outside, decide_false, or_self, bind, Except.bind,
              Bool.false_eq_true, if_false]
            rfl
      refine ⟨_, step, ?_⟩
      rw [ih]
      by_cases enters : entersScc cfg scc n <;> simp [enters]

/-- A node that the entry reaches is the entry or has another node before it. -/
theorem entered_of_reachable {v : CFNodeId} (reachable : Reachable cfg.Edge cfg.entry v) :
    v = cfg.entry ∨ ∃ p, p ≠ v ∧ cfg.Edge p v := by
  obtain ⟨visited, walk⟩ := reachable
  induction walk with
  | start => exact Or.inl rfl
  | @step p v visited before taken ih =>
      by_cases same : p = v
      · exact same ▸ ih
      · exact Or.inr ⟨p, same, taken⟩

theorem isLeaf_eq (ltb : LoopTreeBuilder) (n : CFNodeId) (num : Nat) :
    isLeaf cfg ltb n num = true ↔
      num = 1 ∧ ∀ e ∈ cfg.succEdges n, ltb.isHead e.dst = true ∨ e.dst ≠ n := by
  simp only [isLeaf, Bool.and_eq_true, decide_eq_true_eq, List.all_eq_true, Bool.or_eq_true,
    bne_iff_ne, ne_comm]

/-- Closing a component whose nodes are the stack down to `cur`. -/
theorem closeScc_eq (wellFormed : cfg.WellFormed)
    (reachable : ∀ v ∈ cfg.contents, Reachable cfg.Edge cfg.entry v) {ltb : LoopTreeBuilder}
    {cur : CFNodeId} {above rest : List CFNodeId} (inside : cur ∈ cfg.contents)
    (stack : ltb.stack = above ++ cur :: rest) (off : cur ∉ above) :
    closeScc cfg ltb cur = .ok { ltb with
      children := ltb.children ++ [childOf cfg ltb.isHead (cur :: above.reverse)]
      onStack := fun v => if v ∈ cur :: above.reverse then false else ltb.onStack v
      stack := rest } := by
  have others : ∀ v ∈ above, decide (v ≠ cur) = true := by
    intro v member
    simp only [decide_eq_true_eq]
    rintro rfl
    exact off member
  have drop : ltb.stack.dropWhile (· ≠ cur) = cur :: rest := by
    rw [stack, List.dropWhile_append_of_pos others]
    simp
  have take : ltb.stack.takeWhile (· ≠ cur) = above := by
    rw [stack, List.takeWhile_append_of_pos others]
    simp
  unfold closeScc
  rw [drop, take]
  simp only [collectHeads_eq wellFormed, List.nil_append, bind, Except.bind]
  -- a leaf has exactly one head
  have single : isLeaf cfg ltb cur (cur :: above.reverse).length = true →
      ((cur :: above.reverse).filter (entersScc cfg (cur :: above.reverse))).length = 1 := by
    intro leaf
    have one := ((isLeaf_eq ltb cur _).mp leaf).1
    obtain rfl : above = [] := by simpa using one
    have enters : entersScc cfg [cur] cur = true := by
      rcases entered_of_reachable (reachable cur inside) with isEntry | ⟨p, other, taken⟩
      · simp [entersScc, isEntry.symm]
      · obtain ⟨e, member, rfl⟩ := (wellFormed.edge_iff_pred p cur).mp taken
        simp only [entersScc, decide_eq_true_eq]
        exact Or.inr ⟨e, member, by simpa using other⟩
    simp [enters]
  rw [if_neg (by rintro ⟨leaf, wrong⟩; exact wrong (single leaf))]
  have sameType : (if isLeaf cfg ltb cur (cur :: above.reverse).length = true then
      LTNodeType.leaf else .head) = (childOf cfg ltb.isHead (cur :: above.reverse)).type := by
    unfold childOf
    congr 1
    rw [isLeaf_eq, eq_iff_iff]
    refine and_congr_right fun one => ?_
    obtain rfl : above = [] := by simpa using one
    simp
  rw [sameType]
  rfl

end Close

/-! ## Walks -/

/-- What a piece of a walk keeps of the builder it starts with. -/
structure Grows (before after : LoopTreeBuilder) : Prop where
  isHead : after.isHead = before.isHead
  inSet : ∀ v, before.inSet v = true → after.inSet v = true
  dfs : ∀ v, before.inSet v = true → after.dfs v = before.dfs v
  lowLink : ∀ v, before.inSet v = true → after.lowLink v = before.lowLink v

theorem Grows.unmet {before after : LoopTreeBuilder} (keeps : Grows before after) {v : CFNodeId}
    (unmet : after.inSet v = false) : before.inSet v = false := by
  by_contra met
  have := keeps.inSet v (by simpa using met)
  simp [unmet] at this

/-- A call of `walk_scc` for `cur` from `before` to `after`. -/
structure Walked (cfg : CFG) (active : List CFNodeId) (cur : CFNodeId)
    (before after : LoopTreeBuilder) (sccs : List (List CFNodeId)) : Prop where
  valid : after.search.Valid (WalkEdge cfg before.isHead) active
  marked : after.Marked
  keeps : Grows before after
  completes : Completes cfg before after sccs
  /-- What the call leaves on the stack; `low` of `cur` knows all edges from there to
  the older part. -/
  segment : ∃ above, after.stack = above ++ before.stack ∧
    (∀ v ∈ above, before.inSet v = false) ∧
    ∀ v ∈ above, ∀ w ∈ before.stack, WalkEdge cfg before.isHead v w →
      after.lowLink cur ≤ before.dfs w
  met : after.inSet cur = true
  reached : ∀ v, after.inSet v = true → before.inSet v = false →
    Path (WalkEdge cfg before.isHead) cur v
  gone : cur ∉ after.stack → after.lowLink cur = before.counter

/-- The loop over the successors of `cur` after the edges `done`; the call began in
`before`. -/
structure Walking (cfg : CFG) (active : List CFNodeId) (cur : CFNodeId)
    (before ltb : LoopTreeBuilder) (done : List CFEdge) (sccs : List (List CFNodeId)) :
    Prop where
  valid : ltb.search.Valid (WalkEdge cfg before.isHead) (cur :: active)
  marked : ltb.Marked
  keeps : Grows before ltb
  completes : Completes cfg before ltb sccs
  segment : ∃ above, ltb.stack = above ++ cur :: before.stack ∧
    (∀ v ∈ above, before.inSet v = false) ∧
    ∀ v ∈ above, ∀ w ∈ before.stack, WalkEdge cfg before.isHead v w →
      ltb.lowLink cur ≤ before.dfs w
  met : ltb.inSet cur = true
  reached : ∀ v, ltb.inSet v = true → before.inSet v = false →
    Path (WalkEdge cfg before.isHead) cur v
  number : ltb.dfs cur = before.counter
  successors : ∀ e ∈ done, before.isHead e.dst = false →
    ltb.inSet e.dst = true ∧ (e.dst ∈ before.stack → ltb.lowLink cur ≤ before.dfs e.dst)

/-- The nodes that the walk has not met. -/
def LoopTreeBuilder.remaining (cfg : CFG) (ltb : LoopTreeBuilder) : Nat :=
  cfg.contents.countP fun v => !ltb.inSet v

section Walk
variable {cfg : CFG} {active : List CFNodeId} {cur : CFNodeId} {before ltb : LoopTreeBuilder}

theorem Grows.trans {first second third : LoopTreeBuilder} (one : Grows first second)
    (two : Grows second third) : Grows first third where
  isHead := two.isHead.trans one.isHead
  inSet := fun v met => two.inSet v (one.inSet v met)
  dfs := fun v met => (two.dfs v (one.inSet v met)).trans (one.dfs v met)
  lowLink := fun v met => (two.lowLink v (one.inSet v met)).trans (one.lowLink v met)

theorem Grows.remaining_le {after : LoopTreeBuilder} (keeps : Grows before after) :
    after.remaining cfg ≤ before.remaining cfg := by
  apply List.countP_mono_left
  intro v _ unmet
  simpa using keeps.unmet (by simpa using unmet)

theorem remaining_visit (inside : cur ∈ cfg.contents) (unmet : before.inSet cur = false) :
    (before.visit cur).remaining cfg < before.remaining cfg := by
  apply countP_lt ?_ inside
  · simp [LoopTreeBuilder.visit]
  · simpa using unmet
  · intro v _ still
    by_cases same : v = cur
    · simp [LoopTreeBuilder.visit, same] at still
    · simpa [LoopTreeBuilder.visit, same] using still

theorem search_visit (before : LoopTreeBuilder) (cur : CFNodeId) :
    (before.visit cur).search = before.search.push cur := by
  have visited : (fun v => (before.visit cur).inSet v = true) =
      fun v => v = cur ∨ before.inSet v = true := by
    funext v
    by_cases same : v = cur <;> simp [LoopTreeBuilder.visit, same]
  simp only [LoopTreeBuilder.search, visited]
  rfl

theorem search_lower (ltb : LoopTreeBuilder) (cur succ : CFNodeId) :
    (ltb.lower cur succ).search = ltb.search.lower cur succ := rfl

/-- The loop starts with `cur` on the stack. -/
theorem Walking.begin (valid : before.search.Valid (WalkEdge cfg before.isHead) active)
    (marked : before.Marked) (unmet : before.inSet cur = false)
    (leads : ∀ g ∈ active, Path (WalkEdge cfg before.isHead) g cur) :
    Walking cfg active cur before (before.visit cur) [] [] := by
  have other : ∀ v, before.inSet v = true → v ≠ cur := by
    rintro v met rfl
    simp [unmet] at met
  exact
    { valid := by
        rw [search_visit]
        exact valid.push (by simpa [LoopTreeBuilder.search] using unmet) leads
      marked := by
        intro v
        by_cases same : v = cur
        · simp [LoopTreeBuilder.visit, same]
        · simpa [LoopTreeBuilder.visit, same] using marked v
      keeps :=
        { isHead := rfl
          inSet := fun v met => by simpa [LoopTreeBuilder.visit, other v met] using met
          dfs := fun v met => by simp [LoopTreeBuilder.visit, other v met]
          lowLink := fun v met => by simp [LoopTreeBuilder.visit, other v met] }
      completes :=
        { children := by simp [LoopTreeBuilder.visit]
          nonempty := by simp
          component := by simp
          disjoint := by simp
          emitted := by
            intro v
            simp only [List.flatten_nil, List.not_mem_nil, false_iff]
            rintro ⟨met, unmetV, off⟩
            by_cases same : v = cur
            · exact off (by simp [LoopTreeBuilder.visit, same])
            · simp [LoopTreeBuilder.visit, same, unmetV] at met }
      segment := ⟨[], rfl, by simp, by simp⟩
      met := by simp [LoopTreeBuilder.visit]
      reached := by
        intro v met unmetV
        by_cases same : v = cur
        · exact same ▸ Relation.ReflTransGen.refl
        · simp [LoopTreeBuilder.visit, same, unmetV] at met
      number := by simp [LoopTreeBuilder.visit]
      successors := by simp }

/-- What lowering `low` of `cur` does to the loop. -/
theorem Walking.lower {done : List CFEdge} {sccs : List (List CFNodeId)}
    (walking : Walking cfg active cur before ltb done sccs) (unmet : before.inSet cur = false)
    {e : CFEdge} (known : ltb.inSet e.dst = true)
    (valid : (ltb.lower cur e.dst).search.Valid (WalkEdge cfg before.isHead) (cur :: active))
    (low : e.dst ∈ before.stack → ltb.lowLink e.dst ≤ before.dfs e.dst) :
    Walking cfg active cur before (ltb.lower cur e.dst) (done ++ [e]) sccs := by
  have curLow : (ltb.lower cur e.dst).lowLink cur =
      min (ltb.lowLink cur) (ltb.lowLink e.dst) := by
    simp [LoopTreeBuilder.lower]
  have lowerThan : (ltb.lower cur e.dst).lowLink cur ≤ ltb.lowLink cur := by
    rw [curLow]
    exact min_le_left _ _
  obtain ⟨above, stack, fresh, edges⟩ := walking.segment
  exact
    { valid := valid
      marked := walking.marked
      keeps :=
        { isHead := walking.keeps.isHead
          inSet := walking.keeps.inSet
          dfs := walking.keeps.dfs
          lowLink := by
            intro v met
            have other : v ≠ cur := by
              rintro rfl
              simp [unmet] at met
            simpa [LoopTreeBuilder.lower, other] using walking.keeps.lowLink v met }
      completes :=
        { children := walking.completes.children
          nonempty := walking.completes.nonempty
          component := walking.completes.component
          disjoint := walking.completes.disjoint
          emitted := walking.completes.emitted }
      segment := ⟨above, stack, fresh, fun v member w inStack taken =>
        lowerThan.trans (edges v member w inStack taken)⟩
      met := walking.met
      reached := walking.reached
      number := walking.number
      successors := by
        intro edge member unblocked
        rcases List.mem_append.mp member with old | new
        · have earlier := walking.successors edge old unblocked
          exact ⟨earlier.1, fun inStack => lowerThan.trans (earlier.2 inStack)⟩
        · obtain rfl := List.mem_singleton.mp new
          refine ⟨known, fun inStack => ?_⟩
          rw [curLow]
          exact (min_le_right _ _).trans (low inStack) }

/-- An edge that changes nothing. -/
theorem Walking.skip {done : List CFEdge} {sccs : List (List CFNodeId)}
    (walking : Walking cfg active cur before ltb done sccs) {e : CFEdge}
    (settled : before.isHead e.dst = false →
      ltb.inSet e.dst = true ∧ e.dst ∉ before.stack) :
    Walking cfg active cur before ltb (done ++ [e]) sccs :=
  { walking with
    successors := by
      intro edge member unblocked
      rcases List.mem_append.mp member with old | new
      · exact walking.successors edge old unblocked
      · obtain rfl := List.mem_singleton.mp new
        exact ⟨(settled unblocked).1, fun inStack => absurd inStack (settled unblocked).2⟩ }

/-- The loop goes on after the call for a successor. -/
theorem Walking.call {done : List CFEdge} {sccs : List (List CFNodeId)}
    (walking : Walking cfg active cur before ltb done sccs) (unmet : before.inSet cur = false)
    {after : LoopTreeBuilder} {more : List (List CFNodeId)} {e : CFEdge}
    (unmetDst : ltb.inSet e.dst = false) (unblocked : before.isHead e.dst = false)
    (taken : cfg.Edge cur e.dst) (walked : Walked cfg (cur :: active) e.dst ltb after more)
    (numbered : ∀ v ∈ before.stack, before.inSet v = true) :
    Walking cfg active cur before (after.lower cur e.dst) (done ++ [e]) (sccs ++ more) := by
  have sameHead := walking.keeps.isHead
  have follows : WalkEdge cfg before.isHead cur e.dst := ⟨taken, unblocked⟩
  obtain ⟨above, stack, fresh, edges⟩ := walking.segment
  obtain ⟨newAbove, newStack, newFresh, newEdges⟩ := walked.segment
  have validAfter := walked.valid
  have reachedAfter := walked.reached
  have completed := walked.completes
  rw [sameHead] at validAfter newEdges reachedAfter
  have keptLow : after.lowLink cur = ltb.lowLink cur := walked.keeps.lowLink cur walking.met
  have curStack : cur ∈ ltb.stack := stack ▸ List.mem_append_right _ List.mem_cons_self
  have grows : Grows before after := walking.keeps.trans walked.keeps
  have lowered : (after.lower cur e.dst).lowLink cur =
      min (ltb.lowLink cur) (after.lowLink e.dst) := by
    simp [LoopTreeBuilder.lower, keptLow]
  have oldBound : (after.lower cur e.dst).lowLink cur ≤ ltb.lowLink cur :=
    lowered ▸ min_le_left _ _
  have newBound : (after.lower cur e.dst).lowLink cur ≤ after.lowLink e.dst :=
    lowered ▸ min_le_right _ _
  have notNew : ∀ v, ltb.inSet v = true → v ∉ newAbove := by
    intro v met member
    simp [newFresh v member] at met
  exact
    { valid := by
        rw [search_lower]
        by_cases onStack : e.dst ∈ after.stack
        · exact validAfter.lower onStack follows
        · -- the component of the successor is complete: its `low` is its number
          have low := walked.gone onStack
          have below := walking.valid.low_le cur curStack
          have number := walking.valid.fresh cur curStack
          rw [Search.lower_eq_self]
          · exact validAfter
          · simp only [LoopTreeBuilder.search] at below number ⊢
            omega
      marked := walked.marked
      keeps :=
        { isHead := grows.isHead
          inSet := grows.inSet
          dfs := grows.dfs
          lowLink := by
            intro v met
            have other : v ≠ cur := by
              rintro rfl
              simp [unmet] at met
            simpa [LoopTreeBuilder.lower, other] using grows.lowLink v met }
      completes :=
        { children := by
            change after.children = _
            rw [completed.children, walking.completes.children, sameHead]
            simp
          nonempty := by
            intro scc member
            rcases List.mem_append.mp member with old | new
            · exact walking.completes.nonempty scc old
            · exact completed.nonempty scc new
          component := by
            intro scc member
            rcases List.mem_append.mp member with old | new
            · exact walking.completes.component scc old
            · exact sameHead ▸ completed.component scc new
          disjoint := by
            rw [List.flatten_append]
            apply walking.completes.disjoint.append completed.disjoint
            intro v old new
            have met := ((walking.completes.emitted v).mp old).1
            have unmetV := ((completed.emitted v).mp new).2.1
            simp [met] at unmetV
          emitted := by
            intro v
            change _ ↔ after.inSet v = true ∧ _ ∧ v ∉ after.stack
            rw [List.flatten_append, List.mem_append, walking.completes.emitted v,
              completed.emitted v, newStack, List.mem_append, not_or]
            constructor
            · rintro (⟨met, unmetV, off⟩ | ⟨met, unmetV, off⟩)
              · exact ⟨walked.keeps.inSet v met, unmetV, notNew v met, off⟩
              · exact ⟨met, walking.keeps.unmet unmetV, off⟩
            · rintro ⟨met, unmetV, off⟩
              by_cases earlier : ltb.inSet v = true
              · exact Or.inl ⟨earlier, unmetV, off.2⟩
              · exact Or.inr ⟨met, by simpa using earlier, off⟩ }
      segment := by
        refine ⟨newAbove ++ above, by rw [List.append_assoc, ← stack]; exact newStack, ?_, ?_⟩
        · intro v member
          rcases List.mem_append.mp member with new | old
          · exact walking.keeps.unmet (newFresh v new)
          · exact fresh v old
        · intro v member w inStack edge
          have sameNumber := walking.keeps.dfs w (numbered w inStack)
          rcases List.mem_append.mp member with new | old
          · have inLtb : w ∈ ltb.stack :=
              stack ▸ List.mem_append_right _ (List.mem_cons_of_mem _ inStack)
            exact (newBound.trans (newEdges v new w inLtb edge)).trans sameNumber.le
          · exact oldBound.trans (edges v old w inStack edge)
      met := walked.keeps.inSet cur walking.met
      reached := by
        intro v met unmetV
        by_cases earlier : ltb.inSet v = true
        · exact walking.reached v earlier unmetV
        · exact (reachedAfter v met (by simpa using earlier)).head follows
      number := (walked.keeps.dfs cur walking.met).trans walking.number
      successors := by
        intro edge member unblockedEdge
        rcases List.mem_append.mp member with old | new
        · have earlier := walking.successors edge old unblockedEdge
          exact ⟨walked.keeps.inSet _ earlier.1, fun inStack =>
            oldBound.trans (earlier.2 inStack)⟩
        · obtain rfl := List.mem_singleton.mp new
          refine ⟨walked.met, fun inStack => ?_⟩
          have metDst := walking.keeps.inSet _ (numbered _ inStack)
          simp [unmetDst] at metDst }

/-- What a call of `walk_scc` guarantees. -/
def WalkSpec (cfg : CFG) (fuel : Nat)
    (walk : CFNodeId → LoopTreeBuilder → Except CfgError LoopTreeBuilder) : Prop :=
  ∀ cur active before, before.search.Valid (WalkEdge cfg before.isHead) active →
    before.Marked → cur ∈ cfg.contents → before.inSet cur = false →
    (∀ g ∈ active, Path (WalkEdge cfg before.isHead) g cur) → before.remaining cfg ≤ fuel →
    ∃ after sccs, walk cur before = .ok after ∧ Walked cfg active cur before after sccs

/-- One turn of the loop over the successors. -/
theorem walkSuccessor_spec {fuel : Nat}
    {walk : CFNodeId → LoopTreeBuilder → Except CfgError LoopTreeBuilder}
    (spec : WalkSpec cfg fuel walk) (wellFormed : cfg.WellFormed)
    (valid : before.search.Valid (WalkEdge cfg before.isHead) active)
    (unmet : before.inSet cur = false) {done : List CFEdge} {sccs : List (List CFNodeId)}
    (walking : Walking cfg active cur before ltb done sccs)
    (enough : ltb.remaining cfg ≤ fuel) {e : CFEdge} (listed : e ∈ cfg.succEdges cur) :
    ∃ after more, walkSuccessor walk cur ltb e = .ok after ∧
      Walking cfg active cur before after (done ++ [e]) (sccs ++ more) ∧
      after.remaining cfg ≤ fuel := by
  have taken : cfg.Edge cur e.dst := ⟨e, listed, rfl⟩
  have sameHead := walking.keeps.isHead
  obtain ⟨above, stack, -, -⟩ := walking.segment
  have curStack : cur ∈ ltb.stack := stack ▸ List.mem_append_right _ List.mem_cons_self
  have olderStack : ∀ v ∈ before.stack, v ∈ ltb.stack := fun v member =>
    stack ▸ List.mem_append_right _ (List.mem_cons_of_mem _ member)
  unfold walkSuccessor
  by_cases blocked : ltb.isHead e.dst = true
  · refine ⟨ltb, [], if_pos blocked, ?_, enough⟩
    rw [List.append_nil]
    apply walking.skip
    intro unblocked
    rw [sameHead, unblocked] at blocked
    simp at blocked
  have unblocked : before.isHead e.dst = false := by
    rw [← sameHead]
    simpa using blocked
  rw [if_neg blocked]
  cases metDst : ltb.inSet e.dst with
  | false =>
      have leads : ∀ g ∈ cur :: active, Path (WalkEdge cfg before.isHead) g e.dst := by
        intro g member
        apply Relation.ReflTransGen.tail _ ⟨taken, unblocked⟩
        rcases List.mem_cons.mp member with rfl | older
        · exact Relation.ReflTransGen.refl
        · -- the active nodes below `cur` reach it
          have onStack := valid.active_stack g older
          apply walking.valid.covers g (List.mem_cons_of_mem _ older) cur curStack
          exact ((walking.valid.split stack).2 g onStack).le
      obtain ⟨after, more, ran, walked⟩ := spec e.dst (cur :: active) ltb
        (sameHead.symm ▸ walking.valid) walking.marked (wellFormed.edge_mem taken).2
        metDst (sameHead.symm ▸ leads) enough
      refine ⟨after.lower cur e.dst, more, ?_, ?_, ?_⟩
      · simp only [Bool.false_eq_true, not_false_eq_true, if_true, ran]
        rfl
      · exact walking.call unmet metDst unblocked taken walked valid.visited_stack
      · exact (walked.keeps.remaining_le).trans enough
  | true =>
      simp only [not_true_eq_false, if_false]
      cases onStack : ltb.onStack e.dst with
      | true =>
          have dstStack : e.dst ∈ ltb.stack := (walking.marked e.dst).mp onStack
          refine ⟨ltb.lower cur e.dst, [], rfl, ?_, enough⟩
          rw [List.append_nil]
          refine walking.lower unmet metDst
            (walking.valid.lower dstStack ⟨taken, unblocked⟩) ?_
          intro inStack
          rw [← walking.keeps.dfs e.dst (valid.visited_stack _ inStack)]
          exact walking.valid.low_le e.dst dstStack
      | false =>
          refine ⟨ltb, [], rfl, ?_, enough⟩
          rw [List.append_nil]
          apply walking.skip
          intro _
          refine ⟨metDst, fun inStack => ?_⟩
          have marked := (walking.marked e.dst).mpr (olderStack _ inStack)
          simp [onStack] at marked

theorem walkSuccessors_spec {fuel : Nat}
    {walk : CFNodeId → LoopTreeBuilder → Except CfgError LoopTreeBuilder}
    (spec : WalkSpec cfg fuel walk) (wellFormed : cfg.WellFormed)
    (valid : before.search.Valid (WalkEdge cfg before.isHead) active)
    (unmet : before.inSet cur = false) (edges : List CFEdge) :
    ∀ ltb done sccs, (∀ e ∈ edges, e ∈ cfg.succEdges cur) →
      Walking cfg active cur before ltb done sccs → ltb.remaining cfg ≤ fuel →
      ∃ after more, edges.foldlM (walkSuccessor walk cur) ltb = .ok after ∧
        Walking cfg active cur before after (done ++ edges) more := by
  induction edges with
  | nil =>
      intro ltb done sccs _ walking _
      exact ⟨ltb, sccs, rfl, by simpa using walking⟩
  | cons e edges ih =>
      intro ltb done sccs listed walking enough
      obtain ⟨middle, more, ran, next, enoughNext⟩ := walkSuccessor_spec spec wellFormed valid
        unmet walking enough (listed e List.mem_cons_self)
      obtain ⟨after, final, ranRest, rest⟩ := ih middle (done ++ [e]) (sccs ++ more)
        (fun edge member => listed edge (List.mem_cons_of_mem _ member)) next enoughNext
      refine ⟨after, final, ?_, by simpa using rest⟩
      rw [List.foldlM_cons, ran]
      exact ranRest

/-- The end of a call whose node is no root of a component. -/
theorem Walking.stay {done : List CFEdge} {sccs : List (List CFNodeId)}
    (walking : Walking cfg active cur before ltb done sccs)
    (unmet : before.inSet cur = false)
    (all : ∀ w, WalkEdge cfg before.isHead cur w → ∃ e ∈ done, e.dst = w)
    (low : ltb.lowLink cur ≠ ltb.dfs cur) : Walked cfg active cur before ltb sccs := by
  obtain ⟨above, stack, fresh, edges⟩ := walking.segment
  have curStack : cur ∈ ltb.stack := stack ▸ List.mem_append_right _ List.mem_cons_self
  exact
    { valid := by
        apply walking.valid.stay
        · intro w follows
          obtain ⟨e, member, rfl⟩ := all w follows
          exact (walking.successors e member follows.2).1
        · exact lt_of_le_of_ne (walking.valid.low_le cur curStack) low
      marked := walking.marked
      keeps := walking.keeps
      completes := walking.completes
      segment := by
        refine ⟨above ++ [cur], by rw [stack]; simp, ?_, ?_⟩
        · intro v member
          rcases List.mem_append.mp member with inAbove | isCur
          · exact fresh v inAbove
          · exact List.mem_singleton.mp isCur ▸ unmet
        · intro v member w inStack follows
          rcases List.mem_append.mp member with inAbove | isCur
          · exact edges v inAbove w inStack follows
          · obtain rfl := List.mem_singleton.mp isCur
            obtain ⟨e, listed, rfl⟩ := all w follows
            exact (walking.successors e listed follows.2).2 inStack
      met := walking.met
      reached := walking.reached
      gone := fun off => absurd curStack off }

/-- The end of a call at the root of a component. -/
theorem Walking.close {done : List CFEdge} {sccs : List (List CFNodeId)}
    (walking : Walking cfg active cur before ltb done sccs)
    (wellFormed : cfg.WellFormed)
    (reachable : ∀ v ∈ cfg.contents, Reachable cfg.Edge cfg.entry v)
    (valid : before.search.Valid (WalkEdge cfg before.isHead) active)
    (unmet : before.inSet cur = false) (inside : cur ∈ cfg.contents)
    (all : ∀ w, WalkEdge cfg before.isHead cur w → ∃ e ∈ done, e.dst = w)
    (low : ltb.lowLink cur = ltb.dfs cur) :
    ∃ after scc, closeScc cfg ltb cur = .ok after ∧
      Walked cfg active cur before after (sccs ++ [scc]) := by
  obtain ⟨above, stack, fresh, edges⟩ := walking.segment
  have nodup := walking.valid.nodup
  change ltb.stack.Nodup at nodup
  rw [stack] at nodup
  have offAbove : cur ∉ above := fun member =>
    List.disjoint_of_nodup_append nodup member List.mem_cons_self
  have onStack : ∀ v, v ∈ above ∨ v = cur → v ∈ ltb.stack := by
    rintro v (inAbove | rfl)
    · exact stack ▸ List.mem_append_left _ inAbove
    · exact stack ▸ List.mem_append_right _ List.mem_cons_self
  have offRest : ∀ v ∈ before.stack, v ∉ above ∧ v ≠ cur := by
    intro v member
    constructor
    · exact fun inAbove => List.disjoint_of_nodup_append nodup inAbove
        (List.mem_cons_of_mem _ member)
    · rintro rfl
      have met := valid.visited_stack v member
      simp [LoopTreeBuilder.search, unmet] at met
  have successors : ∀ w, WalkEdge cfg before.isHead cur w → ltb.search.visited w := by
    intro w follows
    obtain ⟨e, member, rfl⟩ := all w follows
    exact (walking.successors e member follows.2).1
  -- an edge to the older part would have made `low` smaller than the number
  have severed : ∀ v, v ∈ above ∨ v = cur → ∀ w ∈ before.stack,
      ¬ WalkEdge cfg before.isHead v w := by
    intro v upper w inStack follows
    have older := valid.fresh w inStack
    have number := walking.number
    have bounded : ltb.lowLink cur ≤ before.dfs w := by
      rcases upper with inAbove | rfl
      · exact edges v inAbove w inStack follows
      · obtain ⟨e, listed, rfl⟩ := all w follows
        exact (walking.successors e listed follows.2).2 inStack
    simp only [LoopTreeBuilder.search] at older
    omega
  have component := walking.valid.root_component stack valid.active_stack successors severed
  have popped := walking.valid.root_pop stack valid.active_stack successors severed
  have memScc : ∀ v, v ∈ cur :: above.reverse ↔ (v ∈ above ∨ v = cur) := by
    intro v
    simp [or_comm]
  refine ⟨_, cur :: above.reverse,
    closeScc_eq wellFormed reachable inside stack offAbove, ?_⟩
  exact
    { valid := popped
      marked := by
        intro v
        change (if v ∈ cur :: above.reverse then false else ltb.onStack v) = true ↔
          v ∈ before.stack
        by_cases upper : v ∈ cur :: above.reverse
        · rw [if_pos upper]
          have := (memScc v).mp upper
          simp only [Bool.false_eq_true, false_iff]
          intro inStack
          rcases this with inAbove | isCur
          · exact (offRest v inStack).1 inAbove
          · exact (offRest v inStack).2 isCur
        · rw [if_neg upper, walking.marked v, stack, List.mem_append, List.mem_cons]
          rw [memScc, not_or] at upper
          simp [upper]
      keeps :=
        { isHead := walking.keeps.isHead
          inSet := walking.keeps.inSet
          dfs := walking.keeps.dfs
          lowLink := walking.keeps.lowLink }
      completes :=
        { children := by
            change ltb.children ++ _ = _
            rw [walking.completes.children, walking.keeps.isHead]
            simp
          nonempty := by
            intro scc member
            rcases List.mem_append.mp member with old | new
            · exact walking.completes.nonempty scc old
            · simp [List.mem_singleton.mp new]
          component := by
            intro scc member
            rcases List.mem_append.mp member with old | new
            · exact walking.completes.component scc old
            · obtain rfl := List.mem_singleton.mp new
              intro u memberU v
              exact (component u ((memScc u).mp memberU) v).trans (memScc v).symm
          disjoint := by
            rw [List.flatten_append, List.flatten_singleton]
            apply walking.completes.disjoint.append
            · apply List.nodup_cons.mpr
              refine ⟨by simpa using offAbove, ?_⟩
              exact List.nodup_reverse.mpr nodup.of_append_left
            · intro v old new
              exact ((walking.completes.emitted v).mp old).2.2 (onStack v ((memScc v).mp new))
          emitted := by
            intro v
            rw [List.flatten_append, List.flatten_singleton, List.mem_append,
              walking.completes.emitted v, memScc]
            change _ ↔ ltb.inSet v = true ∧ _ ∧ v ∉ before.stack
            rw [stack, List.mem_append, List.mem_cons]
            constructor
            · rintro (⟨met, unmetV, off⟩ | upper)
              · simp only [not_or] at off
                exact ⟨met, unmetV, off.2.2⟩
              · refine ⟨walking.valid.visited_stack v (onStack v upper), ?_, ?_⟩
                · rcases upper with inAbove | rfl
                  · exact fresh v inAbove
                  · exact unmet
                · intro inStack
                  rcases upper with inAbove | isCur
                  · exact (offRest v inStack).1 inAbove
                  · exact (offRest v inStack).2 isCur
            · rintro ⟨met, unmetV, off⟩
              by_cases upper : v ∈ above ∨ v = cur
              · exact Or.inr upper
              · rw [not_or] at upper
                exact Or.inl ⟨met, unmetV, by simp [upper, off]⟩ }
      segment := ⟨[], rfl, by simp, by simp⟩
      met := walking.met
      reached := walking.reached
      gone := fun _ => low.trans walking.number }

/-- A walk ends, and its components are those of the graph without the edges to heads. -/
theorem walkScc_spec (wellFormed : cfg.WellFormed)
    (reachable : ∀ v ∈ cfg.contents, Reachable cfg.Edge cfg.entry v) :
    ∀ fuel, WalkSpec cfg fuel (walkScc cfg fuel) := by
  intro fuel
  induction fuel with
  | zero =>
      intro cur active before _ _ inside unmet _ enough
      have := remaining_visit inside unmet
      omega
  | succ fuel ih =>
      intro cur active before valid marked inside unmet leads enough
      have fewer := remaining_visit inside unmet
      obtain ⟨ltb, sccs, ran, walking⟩ := walkSuccessors_spec ih wellFormed valid unmet
        (cfg.succEdges cur) (before.visit cur) [] [] (fun _ member => member)
        (Walking.begin valid marked unmet leads) (by omega)
      have all : ∀ w, WalkEdge cfg before.isHead cur w → ∃ e ∈ [] ++ cfg.succEdges cur,
          e.dst = w := fun w follows => follows.1
      unfold walkScc
      by_cases low : ltb.lowLink cur = ltb.dfs cur
      · obtain ⟨after, scc, closed, walked⟩ :=
          walking.close wellFormed reachable valid unmet inside all low
        refine ⟨after, sccs ++ [scc], ?_, walked⟩
        rw [bind_eq_ok]
        exact ⟨ltb, ran, by rw [if_pos low]; exact closed⟩
      · refine ⟨ltb, sccs, ?_, walking.stay unmet all low⟩
        rw [bind_eq_ok]
        exact ⟨ltb, ran, by rw [if_neg low]; rfl⟩

end Walk

end Shady
