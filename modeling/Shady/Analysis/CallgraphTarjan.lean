import Shady.Analysis.CallgraphSearch
import Shady.Library.Tarjan

/-!
# Recursive call chains

`strongconnect` marks the functions of each component of the call graph with more than
one function. A call of it visits what its function reaches that was not visited before,
and marks among those that have left the stack the ones that reach another function and
are reached from it.
-/

set_option autoImplicit false

namespace Shady.Callgraph
open Fallible Tarjan

variable {count : Nat}

/-- The node of `u` has an edge to `v`. -/
def CallGraph.Leads (graph : CallGraph count) (u v : Fin count) : Prop :=
  ∃ e ∈ (graph.node u).callees, e.dstFn = v

namespace TarjanState

def visited (s : TarjanState count) (v : Fin count) : Prop :=
  (s.graph.node v).tarjan.index ≠ none

def number (s : TarjanState count) (v : Fin count) : Nat :=
  (s.graph.node v).tarjan.index.getD 0

def low (s : TarjanState count) (v : Fin count) : Nat := (s.graph.node v).tarjan.lowlink

/-- The search that the fields of the nodes stand for. -/
def search (s : TarjanState count) : Search (Fin count) where
  visited := s.visited
  stack := s.stack
  dfs := s.number
  low := s.low
  counter := s.index

/-- The flags `on_stack` mark the functions of the stack. -/
def Marked (s : TarjanState count) : Prop :=
  ∀ v, (s.graph.node v).tarjan.onStack = true ↔ v ∈ s.stack

end TarjanState

/-! ## Writes to the marks -/

section Writes
variable (s : TarjanState count) (v : Fin count)

theorem update_mark_kept (graph : CallGraph count) (write : TarjanMarks → TarjanMarks)
    (w : Fin count) : ((graph.update v (·.mark write)).node w).callees = (graph.node w).callees ∧
      ((graph.update v (·.mark write)).node w).isRecursive = (graph.node w).isRecursive := by
  by_cases same : w = v <;> simp [CallGraph.update, CGNode.mark, same]

@[simp] theorem enter_callees (w : Fin count) :
    ((s.enter v).graph.node w).callees = (s.graph.node w).callees :=
  (update_mark_kept v s.graph _ w).1

@[simp] theorem enter_isRecursive (w : Fin count) :
    ((s.enter v).graph.node w).isRecursive = (s.graph.node w).isRecursive :=
  (update_mark_kept v s.graph _ w).2

@[simp] theorem enter_same :
    ((s.enter v).graph.node v).tarjan = ⟨some s.index, s.index, true⟩ := by
  simp [TarjanState.enter, CGNode.mark]

@[simp] theorem enter_other {w : Fin count} (different : w ≠ v) :
    (s.enter v).graph.node w = s.graph.node w := by
  simp [TarjanState.enter, different]

variable (bound : Nat)

@[simp] theorem lower_callees (w : Fin count) :
    ((s.lower v bound).graph.node w).callees = (s.graph.node w).callees :=
  (update_mark_kept v s.graph _ w).1

@[simp] theorem lower_isRecursive (w : Fin count) :
    ((s.lower v bound).graph.node w).isRecursive = (s.graph.node w).isRecursive :=
  (update_mark_kept v s.graph _ w).2

@[simp] theorem lower_index (w : Fin count) :
    ((s.lower v bound).graph.node w).tarjan.index = (s.graph.node w).tarjan.index := by
  by_cases same : w = v <;> simp [TarjanState.lower, CallGraph.update, CGNode.mark, same]

@[simp] theorem lower_onStack (w : Fin count) :
    ((s.lower v bound).graph.node w).tarjan.onStack = (s.graph.node w).tarjan.onStack := by
  by_cases same : w = v <;> simp [TarjanState.lower, CallGraph.update, CGNode.mark, same]

@[simp] theorem lower_same : (s.lower v bound).low v = min (s.low v) bound := by
  simp [TarjanState.low, TarjanState.lower, CGNode.mark]

@[simp] theorem lower_other {w : Fin count} (different : w ≠ v) :
    (s.lower v bound).low w = s.low w := by
  simp [TarjanState.low, TarjanState.lower, different]

theorem search_enter : (s.enter v).search = s.search.push v := by
  have visited : (s.enter v).visited = fun w => w = v ∨ s.visited w := by
    funext w
    by_cases same : w = v
    · simp [TarjanState.visited, same]
    · simp [TarjanState.visited, same]
  have number : (s.enter v).number = fun w => if w = v then s.index else s.number w := by
    funext w
    by_cases same : w = v
    · simp [TarjanState.number, same]
    · simp [TarjanState.number, same]
  have low : (s.enter v).low = fun w => if w = v then s.index else s.low w := by
    funext w
    by_cases same : w = v
    · simp [TarjanState.low, same]
    · simp [TarjanState.low, same]
  simp only [TarjanState.search, visited, number, low]
  rfl

theorem search_lower : (s.lower v bound).search = s.search.lowerTo v bound := by
  have visited : (s.lower v bound).visited = s.visited := by
    funext w
    simp [TarjanState.visited]
  have number : (s.lower v bound).number = s.number := by
    funext w
    simp [TarjanState.number]
  have low : (s.lower v bound).low =
      fun w => if w = v then min (s.low v) bound else s.low w := by
    funext w
    by_cases same : w = v
    · simp [same]
    · simp [same]
  simp only [TarjanState.search, visited, number, low]
  rfl

end Writes

/-! ## Calls of `strongconnect` -/

/-- What a piece of the search keeps of the state it starts with. -/
structure Grows (before after : TarjanState count) : Prop where
  callees : ∀ v, (after.graph.node v).callees = (before.graph.node v).callees
  fns : after.graph.fns = before.graph.fns
  index : ∀ v, before.visited v →
    (after.graph.node v).tarjan.index = (before.graph.node v).tarjan.index
  low : ∀ v, before.visited v → after.low v = before.low v

/-- A piece of the search marks the functions that it has visited, and that have left the
stack, if their component holds another function. -/
def MarksRecursive (R : Fin count → Fin count → Prop) (before after : TarjanState count) : Prop :=
  ∀ v, (after.graph.node v).isRecursive = true ↔
    (before.graph.node v).isRecursive = true ∨
      (after.visited v ∧ ¬ before.visited v ∧ v ∉ after.stack ∧ ∃ u, u ≠ v ∧ Mutual R v u)

section Search
variable {R : Fin count → Fin count → Prop} {active : List (Fin count)} {cur : Fin count}
  {before s : TarjanState count}

theorem Grows.refl (s : TarjanState count) : Grows s s :=
  ⟨fun _ => rfl, rfl, fun _ _ => rfl, fun _ _ => rfl⟩

theorem Grows.visited {after : TarjanState count} (keeps : Grows before after) {v : Fin count}
    (met : before.visited v) : after.visited v := by
  unfold TarjanState.visited
  rw [keeps.index v met]
  exact met

theorem Grows.number {after : TarjanState count} (keeps : Grows before after) {v : Fin count}
    (met : before.visited v) : after.number v = before.number v := by
  unfold TarjanState.number
  rw [keeps.index v met]

theorem Grows.trans {first second third : TarjanState count} (one : Grows first second)
    (two : Grows second third) : Grows first third where
  callees := fun v => (two.callees v).trans (one.callees v)
  fns := two.fns.trans one.fns
  index := fun v met => (two.index v (one.visited met)).trans (one.index v met)
  low := fun v met => (two.low v (one.visited met)).trans (one.low v met)

theorem MarksRecursive.refl (R : Fin count → Fin count → Prop) (s : TarjanState count) :
    MarksRecursive R s s := by
  intro v
  constructor
  · exact Or.inl
  · rintro (marked | ⟨met, unmet, -⟩)
    · exact marked
    · exact absurd met unmet

/-- The functions that the search has not met. -/
noncomputable def TarjanState.remaining (s : TarjanState count) : Nat :=
  (List.finRange count).countP fun v => (s.graph.node v).tarjan.index = none

theorem Grows.remaining_le {after : TarjanState count} (keeps : Grows before after) :
    after.remaining ≤ before.remaining := by
  apply List.countP_mono_left
  intro v _ unmet
  rw [decide_eq_true_eq] at unmet ⊢
  by_contra met
  exact keeps.visited met unmet

theorem remaining_enter (unmet : ¬ before.visited cur) :
    (before.enter cur).remaining < before.remaining := by
  apply countP_lt ?_ (List.mem_finRange cur)
  · simp
  · simpa [TarjanState.visited] using unmet
  · intro v _ still
    by_cases same : v = cur
    · simp [same] at still
    · simpa [same] using still

/-- A call of `strongconnect` for `cur` from `before` to `after`. -/
structure Walked (R : Fin count → Fin count → Prop) (active : List (Fin count))
    (cur : Fin count) (before after : TarjanState count) : Prop where
  valid : after.search.Valid R active
  marked : after.Marked
  keeps : Grows before after
  recursive : MarksRecursive R before after
  /-- What the call leaves on the stack; `low` of `cur` knows all edges from there to
  the older part. -/
  segment : ∃ above, after.stack = above ++ before.stack ∧
    (∀ v ∈ above, ¬ before.visited v) ∧
    ∀ v ∈ above, ∀ w ∈ before.stack, R v w → after.low cur ≤ before.number w
  met : after.visited cur
  gone : cur ∉ after.stack → after.low cur = before.index

/-- The loop over the callees of `cur` after the edges `done`; the call began in
`before`. -/
structure Walking (R : Fin count → Fin count → Prop) (active : List (Fin count))
    (cur : Fin count) (before s : TarjanState count) (done : List (CGEdge count)) : Prop where
  valid : s.search.Valid R (cur :: active)
  marked : s.Marked
  keeps : Grows before s
  recursive : MarksRecursive R before s
  segment : ∃ above, s.stack = above ++ cur :: before.stack ∧
    (∀ v ∈ above, ¬ before.visited v) ∧
    ∀ v ∈ above, ∀ w ∈ before.stack, R v w → s.low cur ≤ before.number w
  met : s.visited cur
  number : s.number cur = before.index
  successors : ∀ e ∈ done,
    s.visited e.dstFn ∧ (e.dstFn ∈ before.stack → s.low cur ≤ before.number e.dstFn)

/-- The loop starts with `cur` on the stack. -/
theorem Walking.begin (valid : before.search.Valid R active) (marked : before.Marked)
    (unmet : ¬ before.visited cur) (leads : ∀ g ∈ active, Path R g cur) :
    Walking R active cur before (before.enter cur) [] := by
  have other : ∀ v, before.visited v → v ≠ cur := by
    rintro v met rfl
    exact unmet met
  exact
    { valid := by
        rw [search_enter]
        exact valid.push unmet leads
      marked := by
        intro v
        by_cases same : v = cur
        · simp [TarjanState.enter, CGNode.mark, same]
        · simpa [TarjanState.enter, same] using marked v
      keeps :=
        { callees := by simp
          fns := rfl
          index := fun v met => by rw [enter_other _ _ (other v met)]
          low := fun v met => by
            unfold TarjanState.low
            rw [enter_other _ _ (other v met)] }
      recursive := by
        intro v
        rw [enter_isRecursive]
        constructor
        · exact Or.inl
        · rintro (old | ⟨met, unmetV, off, -⟩)
          · exact old
          · by_cases same : v = cur
            · exact absurd (by simp [TarjanState.enter, same]) off
            · exact absurd (by simpa [TarjanState.visited, same] using met) unmetV
      segment := ⟨[], rfl, by simp, by simp⟩
      met := by simp [TarjanState.visited]
      number := by simp [TarjanState.number]
      successors := by simp }

theorem Walking.above_visited {done : List (CGEdge count)}
    (walking : Walking R active cur before s done) (valid : before.search.Valid R active)
    {v : Fin count} (older : v ∈ before.stack) : v ∈ s.stack ∧ s.number v = before.number v := by
  obtain ⟨above, stack, -, -⟩ := walking.segment
  constructor
  · exact stack ▸ List.mem_append_right _ (List.mem_cons_of_mem _ older)
  · exact walking.keeps.number (valid.visited_stack v older)

/-- What lowering `low` of `cur` does to the loop. -/
theorem Walking.lower {done : List (CGEdge count)}
    (walking : Walking R active cur before s done) (unmet : ¬ before.visited cur)
    {e : CGEdge count} {bound : Nat} (known : s.visited e.dstFn)
    (valid : (s.lower cur bound).search.Valid R (cur :: active))
    (low : e.dstFn ∈ before.stack → bound ≤ before.number e.dstFn) :
    Walking R active cur before (s.lower cur bound) (done ++ [e]) := by
  have lowerThan : (s.lower cur bound).low cur ≤ s.low cur := by
    rw [lower_same]
    exact min_le_left _ _
  have sameVisited : ∀ v, (s.lower cur bound).visited v ↔ s.visited v := by
    intro v
    simp [TarjanState.visited]
  obtain ⟨above, stack, fresh, edges⟩ := walking.segment
  exact
    { valid := valid
      marked := fun v => by
        rw [lower_onStack]
        exact walking.marked v
      keeps :=
        { callees := fun v => (lower_callees _ _ _ v).trans (walking.keeps.callees v)
          fns := walking.keeps.fns
          index := fun v met => (lower_index _ _ _ v).trans (walking.keeps.index v met)
          low := by
            intro v met
            have other : v ≠ cur := by
              rintro rfl
              exact unmet met
            rw [lower_other _ _ _ other]
            exact walking.keeps.low v met }
      recursive := by
        intro v
        rw [lower_isRecursive, sameVisited]
        exact walking.recursive v
      segment := ⟨above, stack, fresh, fun v member w inStack taken =>
        lowerThan.trans (edges v member w inStack taken)⟩
      met := (sameVisited cur).mpr walking.met
      number := by
        unfold TarjanState.number
        rw [lower_index]
        exact walking.number
      successors := by
        intro edge member
        rw [sameVisited]
        cases List.mem_append.mp member with
        | inl old =>
            have earlier := walking.successors edge old
            exact ⟨earlier.1, fun inStack => lowerThan.trans (earlier.2 inStack)⟩
        | inr new =>
            obtain rfl := List.mem_singleton.mp new
            refine ⟨known, fun inStack => ?_⟩
            rw [lower_same]
            exact (min_le_right _ _).trans (low inStack) }

/-- An edge that changes nothing. -/
theorem Walking.skip {done : List (CGEdge count)}
    (walking : Walking R active cur before s done) {e : CGEdge count}
    (known : s.visited e.dstFn) (off : e.dstFn ∉ before.stack) :
    Walking R active cur before s (done ++ [e]) :=
  { walking with
    successors := by
      intro edge member
      cases List.mem_append.mp member with
      | inl old => exact walking.successors edge old
      | inr new =>
          obtain rfl := List.mem_singleton.mp new
          exact ⟨known, fun inStack => absurd inStack off⟩ }

/-- The loop goes on after the call for a callee. -/
theorem Walking.call {done : List (CGEdge count)}
    (walking : Walking R active cur before s done) (unmet : ¬ before.visited cur)
    {after : TarjanState count} {e : CGEdge count} (unmetDst : ¬ s.visited e.dstFn)
    (taken : R cur e.dstFn) (walked : Walked R (cur :: active) e.dstFn s after)
    (older : before.search.Valid R active) :
    Walking R active cur before (after.lower cur (after.low e.dstFn)) (done ++ [e]) := by
  obtain ⟨above, stack, fresh, edges⟩ := walking.segment
  obtain ⟨newAbove, newStack, newFresh, newEdges⟩ := walked.segment
  have keptLow : after.low cur = s.low cur := walked.keeps.low cur walking.met
  have curStack : cur ∈ s.stack := stack ▸ List.mem_append_right _ List.mem_cons_self
  have grows : Grows before after := walking.keeps.trans walked.keeps
  have notNew : ∀ v, s.visited v → v ∉ newAbove := fun v met member => newFresh v member met
  have unmetEarlier : ∀ v, ¬ s.visited v → ¬ before.visited v := fun v unmetV met =>
    unmetV (walking.keeps.visited met)
  have valid : (after.lower cur (after.low e.dstFn)).search.Valid R (cur :: active) := by
    rw [search_lower]
    by_cases onStack : e.dstFn ∈ after.stack
    · exact walked.valid.lower onStack taken
    · -- the component of the callee is complete: its `low` is its number
      have low := walked.gone onStack
      have below := walking.valid.low_le cur curStack
      have number := walking.valid.fresh cur curStack
      rw [Search.lowerTo_eq_self]
      · exact walked.valid
      · simp only [TarjanState.search] at below number ⊢
        omega
  -- the state before `low` is lowered: as `walking`, with what the call has added on top
  have bounds : ∃ above, after.stack = above ++ cur :: before.stack ∧
      (∀ v ∈ above, ¬ before.visited v) ∧
      ∀ v ∈ above, ∀ w ∈ before.stack, R v w →
        (after.lower cur (after.low e.dstFn)).low cur ≤ before.number w := by
    refine ⟨newAbove ++ above, by rw [List.append_assoc, ← stack]; exact newStack, ?_, ?_⟩
    · intro v member
      cases List.mem_append.mp member with
      | inl new => exact unmetEarlier v (newFresh v new)
      | inr old => exact fresh v old
    · intro v member w inStack edge
      rw [lower_same, keptLow]
      have inside := walking.above_visited older inStack
      cases List.mem_append.mp member with
      | inl new =>
          exact (min_le_right _ _).trans ((newEdges v new w inside.1 edge).trans inside.2.le)
      | inr old => exact (min_le_left _ _).trans (edges v old w inStack edge)
  have sameVisited : ∀ v, (after.lower cur (after.low e.dstFn)).visited v ↔ after.visited v := by
    intro v
    simp [TarjanState.visited]
  exact
    { valid := valid
      marked := fun v => by
        rw [lower_onStack]
        exact walked.marked v
      keeps :=
        { callees := fun v => (lower_callees _ _ _ v).trans (grows.callees v)
          fns := grows.fns
          index := fun v met => (lower_index _ _ _ v).trans (grows.index v met)
          low := by
            intro v met
            have other : v ≠ cur := by
              rintro rfl
              exact unmet met
            rw [lower_other _ _ _ other]
            exact grows.low v met }
      recursive := by
        intro v
        rw [lower_isRecursive, sameVisited, walked.recursive v, walking.recursive v]
        change _ ↔ _ ∨ (_ ∧ _ ∧ v ∉ after.stack ∧ _)
        rw [newStack, List.mem_append, not_or]
        constructor
        · rintro ((old | ⟨met, unmetV, off, other⟩) | ⟨met, unmetV, off, other⟩)
          · exact Or.inl old
          · exact Or.inr ⟨walked.keeps.visited met, unmetV, ⟨notNew v met, off⟩, other⟩
          · exact Or.inr ⟨met, unmetEarlier v unmetV, off, other⟩
        · rintro (old | ⟨met, unmetV, off, other⟩)
          · exact Or.inl (Or.inl old)
          · by_cases earlier : s.visited v
            · exact Or.inl (Or.inr ⟨earlier, unmetV, off.2, other⟩)
            · exact Or.inr ⟨met, earlier, off, other⟩
      segment := bounds
      met := (sameVisited cur).mpr (walked.keeps.visited walking.met)
      number := by
        unfold TarjanState.number
        rw [lower_index]
        exact (walked.keeps.number walking.met).trans walking.number
      successors := by
        intro edge member
        rw [sameVisited, lower_same, keptLow]
        cases List.mem_append.mp member with
        | inl old =>
            have earlier := walking.successors edge old
            exact ⟨walked.keeps.visited earlier.1, fun inStack =>
              (min_le_left _ _).trans (earlier.2 inStack)⟩
        | inr new =>
            obtain rfl := List.mem_singleton.mp new
            refine ⟨walked.met, fun inStack => ?_⟩
            exact absurd (older.visited_stack _ inStack) (unmetEarlier _ unmetDst) }

/-- What a call of `strongconnect` guarantees. -/
def WalkSpec (R : Fin count → Fin count → Prop) (fuel : Nat)
    (connect : Fin count → TarjanState count → Except CfgError (TarjanState count)) : Prop :=
  ∀ cur active before, before.search.Valid R active → before.Marked → before.graph.Leads = R →
    ¬ before.visited cur → (∀ g ∈ active, Path R g cur) → before.remaining ≤ fuel →
    ∃ after, connect cur before = .ok after ∧ Walked R active cur before after

theorem Grows.leads {after : TarjanState count} (keeps : Grows before after) :
    after.graph.Leads = before.graph.Leads := by
  funext u v
  simp [CallGraph.Leads, keeps.callees]

/-- One turn of the loop over the callees. -/
theorem considerSuccessor_spec {fuel : Nat}
    {connect : Fin count → TarjanState count → Except CfgError (TarjanState count)}
    (spec : WalkSpec R fuel connect) (valid : before.search.Valid R active)
    (leads : before.graph.Leads = R) (unmet : ¬ before.visited cur)
    {done : List (CGEdge count)} (walking : Walking R active cur before s done)
    (enough : s.remaining ≤ fuel) {e : CGEdge count} (taken : R cur e.dstFn) :
    ∃ after, considerSuccessor connect cur s e = .ok after ∧
      Walking R active cur before after (done ++ [e]) ∧ after.remaining ≤ fuel := by
  obtain ⟨above, stack, -, -⟩ := walking.segment
  have curStack : cur ∈ s.stack := stack ▸ List.mem_append_right _ List.mem_cons_self
  unfold considerSuccessor
  cases index : (s.graph.node e.dstFn).tarjan.index with
  | none =>
      have unmetDst : ¬ s.visited e.dstFn := by simp [TarjanState.visited, index]
      have reaches : ∀ g ∈ cur :: active, Path R g e.dstFn := by
        intro g member
        apply Relation.ReflTransGen.tail _ taken
        cases List.mem_cons.mp member with
        | inl same => exact same ▸ Relation.ReflTransGen.refl
        | inr older =>
            -- the active functions below `cur` reach it
            have onStack := valid.active_stack g older
            apply walking.valid.covers g (List.mem_cons_of_mem _ older) cur curStack
            exact ((walking.valid.split stack).2 g onStack).le
      obtain ⟨after, ran, walked⟩ := spec e.dstFn (cur :: active) s walking.valid walking.marked
        (walking.keeps.leads.trans leads) unmetDst reaches enough
      refine ⟨after.lower cur (after.low e.dstFn), ?_, ?_, ?_⟩
      · simp only [ran]
        rfl
      · exact walking.call unmet unmetDst taken walked valid
      · have fewer := walked.keeps.remaining_le.trans enough
        simpa [TarjanState.remaining] using fewer
  | some index' =>
      have metDst : s.visited e.dstFn := by simp [TarjanState.visited, index]
      have number : s.number e.dstFn = index' := by simp [TarjanState.number, index]
      cases onStack : (s.graph.node e.dstFn).tarjan.onStack with
      | true =>
          have dstStack : e.dstFn ∈ s.stack := (walking.marked e.dstFn).mp onStack
          refine ⟨s.lower cur index', by simp, ?_, ?_⟩
          · apply walking.lower unmet metDst
            · rw [search_lower, ← number]
              exact walking.valid.lowerTo dstStack (Relation.ReflTransGen.single taken)
            · intro inStack
              rw [← number, (walking.above_visited valid inStack).2]
          · simpa [TarjanState.remaining] using enough
      | false =>
          refine ⟨s, by simp, ?_, enough⟩
          apply walking.skip metDst
          intro inStack
          have marked := (walking.marked e.dstFn).mpr (walking.above_visited valid inStack).1
          simp [onStack] at marked

theorem considerSuccessors_spec {fuel : Nat}
    {connect : Fin count → TarjanState count → Except CfgError (TarjanState count)}
    (spec : WalkSpec R fuel connect) (valid : before.search.Valid R active)
    (leads : before.graph.Leads = R) (unmet : ¬ before.visited cur)
    (edges : List (CGEdge count)) :
    ∀ s done, (∀ e ∈ edges, R cur e.dstFn) → Walking R active cur before s done →
      s.remaining ≤ fuel →
      ∃ after, edges.foldlM (considerSuccessor connect cur) s = .ok after ∧
        Walking R active cur before after (done ++ edges) := by
  induction edges with
  | nil =>
      intro s done _ walking _
      exact ⟨s, rfl, by simpa using walking⟩
  | cons e edges ih =>
      intro s done taken walking enough
      obtain ⟨middle, ran, next, enoughNext⟩ := considerSuccessor_spec spec valid leads unmet
        walking enough (taken e List.mem_cons_self)
      obtain ⟨after, ranRest, rest⟩ := ih middle (done ++ [e])
        (fun edge member => taken edge (List.mem_cons_of_mem _ member)) next enoughNext
      refine ⟨after, ?_, by simpa using rest⟩
      rw [List.foldlM_cons, ran]
      exact ranRest

/-- The end of a call whose function is no root of a component. -/
theorem Walking.stay {done : List (CGEdge count)}
    (walking : Walking R active cur before s done) (unmet : ¬ before.visited cur)
    (all : ∀ w, R cur w → ∃ e ∈ done, e.dstFn = w) (low : s.low cur ≠ s.number cur) :
    Walked R active cur before s := by
  obtain ⟨above, stack, fresh, edges⟩ := walking.segment
  have curStack : cur ∈ s.stack := stack ▸ List.mem_append_right _ List.mem_cons_self
  exact
    { valid := by
        apply walking.valid.stay
        · intro w follows
          obtain ⟨e, member, rfl⟩ := all w follows
          exact (walking.successors e member).1
        · exact lt_of_le_of_ne (walking.valid.low_le cur curStack) low
      marked := walking.marked
      keeps := walking.keeps
      recursive := walking.recursive
      segment := by
        refine ⟨above ++ [cur], by rw [stack]; simp, ?_, ?_⟩
        · intro v member
          cases List.mem_append.mp member with
          | inl inAbove => exact fresh v inAbove
          | inr isCur => exact List.mem_singleton.mp isCur ▸ unmet
        · intro v member w inStack follows
          cases List.mem_append.mp member with
          | inl inAbove => exact edges v inAbove w inStack follows
          | inr isCur =>
              obtain rfl := List.mem_singleton.mp isCur
              obtain ⟨e, listed, rfl⟩ := all w follows
              exact (walking.successors e listed).2 inStack
      met := walking.met
      gone := fun off => absurd curStack off }

/-! ## Popping a component -/

/-- The state after the functions `scc` have left the stack. -/
def TarjanState.popped (s : TarjanState count) (scc rest : List (Fin count)) :
    TarjanState count :=
  { s with
    graph := { s.graph with
      node := fun w =>
        if w ∈ scc then
          { s.graph.node w with
            tarjan := { (s.graph.node w).tarjan with onStack := false }
            isRecursive := (s.graph.node w).isRecursive || decide (scc.length > 1) }
        else s.graph.node w }
    stack := rest }

theorem popScc_eq {above rest : List (Fin count)} (stack : s.stack = above ++ cur :: rest)
    (off : cur ∉ above) : popScc s cur = .ok (s.popped (above ++ [cur]) rest) := by
  have others : ∀ v ∈ above, decide (v ≠ cur) = true := by
    intro v member
    simp only [decide_eq_true_eq]
    rintro rfl
    exact off member
  have drop : s.stack.dropWhile (· ≠ cur) = cur :: rest := by
    rw [stack, List.dropWhile_append_of_pos others]
    simp
  have take : s.stack.takeWhile (· ≠ cur) = above := by
    rw [stack, List.takeWhile_append_of_pos others]
    simp
  unfold popScc
  rw [drop, take]
  rfl

@[simp] theorem popped_index (scc rest : List (Fin count)) (v : Fin count) :
    ((s.popped scc rest).graph.node v).tarjan.index = (s.graph.node v).tarjan.index := by
  simp only [TarjanState.popped]
  split_ifs <;> rfl

@[simp] theorem popped_lowlink (scc rest : List (Fin count)) (v : Fin count) :
    ((s.popped scc rest).graph.node v).tarjan.lowlink = (s.graph.node v).tarjan.lowlink := by
  simp only [TarjanState.popped]
  split_ifs <;> rfl

@[simp] theorem popped_callees (scc rest : List (Fin count)) (v : Fin count) :
    ((s.popped scc rest).graph.node v).callees = (s.graph.node v).callees := by
  simp only [TarjanState.popped]
  split_ifs <;> rfl

@[simp] theorem popped_onStack (scc rest : List (Fin count)) (v : Fin count) :
    ((s.popped scc rest).graph.node v).tarjan.onStack =
      if v ∈ scc then false else (s.graph.node v).tarjan.onStack := by
  simp only [TarjanState.popped]
  split_ifs <;> rfl

theorem popped_isRecursive (scc rest : List (Fin count)) (v : Fin count) :
    ((s.popped scc rest).graph.node v).isRecursive =
      if v ∈ scc then (s.graph.node v).isRecursive || decide (scc.length > 1)
      else (s.graph.node v).isRecursive := by
  simp only [TarjanState.popped]
  split_ifs <;> rfl

theorem popped_search (scc rest : List (Fin count)) :
    (s.popped scc rest).search = s.search.pop rest := by
  have visited : (s.popped scc rest).visited = s.visited := by
    funext v
    simp [TarjanState.visited]
  have number : (s.popped scc rest).number = s.number := by
    funext v
    simp [TarjanState.number]
  have low : (s.popped scc rest).low = s.low := by
    funext v
    simp [TarjanState.low]
  simp only [TarjanState.search, visited, number, low]
  rfl

/-- A component has more than one function if each of them is in it with another one. -/
theorem component_other {members : List (Fin count)} (nodup : members.Nodup)
    (component : IsComponent R (· ∈ members)) {v : Fin count} (inside : v ∈ members) :
    members.length > 1 ↔ ∃ u, u ≠ v ∧ Mutual R v u := by
  constructor
  · intro more
    obtain ⟨u, member, different⟩ : ∃ u ∈ members, u ≠ v := by
      by_contra none
      push Not at none
      have alone : members = List.replicate members.length v :=
        List.eq_replicate_iff.mpr ⟨rfl, none⟩
      rw [alone, List.nodup_replicate] at nodup
      omega
    exact ⟨u, different, (component v inside u).mpr member⟩
  · rintro ⟨u, different, both⟩
    have member := (component v inside u).mp both
    by_contra few
    match members, few with
    | [], _ => exact absurd inside List.not_mem_nil
    | [w], _ =>
        exact different ((List.mem_singleton.mp member).trans (List.mem_singleton.mp inside).symm)
    | _ :: _ :: _, few => simp at few

/-- The end of a call at the root of a component. -/
theorem Walking.close {done : List (CGEdge count)}
    (walking : Walking R active cur before s done) (valid : before.search.Valid R active)
    (unmet : ¬ before.visited cur) (all : ∀ w, R cur w → ∃ e ∈ done, e.dstFn = w)
    (low : s.low cur = s.number cur) :
    ∃ after, popScc s cur = .ok after ∧ Walked R active cur before after := by
  obtain ⟨above, stack, fresh, edges⟩ := walking.segment
  have nodup := walking.valid.nodup
  change s.stack.Nodup at nodup
  rw [stack] at nodup
  have offAbove : cur ∉ above := fun member =>
    List.disjoint_of_nodup_append nodup member List.mem_cons_self
  have memScc : ∀ v, v ∈ above ++ [cur] ↔ v ∈ above ∨ v = cur := by simp
  have onStack : ∀ v, v ∈ above ∨ v = cur → v ∈ s.stack := by
    rintro v (inAbove | rfl)
    · exact stack ▸ List.mem_append_left _ inAbove
    · exact stack ▸ List.mem_append_right _ List.mem_cons_self
  have offRest : ∀ v ∈ before.stack, v ∉ above ++ [cur] := by
    intro v member inScc
    cases (memScc v).mp inScc with
    | inl inAbove =>
        exact List.disjoint_of_nodup_append nodup inAbove (List.mem_cons_of_mem _ member)
    | inr isCur => exact unmet (isCur ▸ valid.visited_stack v member)
  have successors : ∀ w, R cur w → s.search.visited w := by
    intro w follows
    obtain ⟨e, member, rfl⟩ := all w follows
    exact (walking.successors e member).1
  -- an edge to the older part would have made `low` smaller than the number
  have severed : ∀ v, v ∈ above ∨ v = cur → ∀ w ∈ before.stack, ¬ R v w := by
    intro v upper w inStack follows
    have older := valid.fresh w inStack
    have number := walking.number
    have bounded : s.low cur ≤ before.number w := by
      rcases upper with inAbove | rfl
      · exact edges v inAbove w inStack follows
      · obtain ⟨e, listed, rfl⟩ := all w follows
        exact (walking.successors e listed).2 inStack
    simp only [TarjanState.search] at older
    omega
  have component : IsComponent R (· ∈ above ++ [cur]) := by
    intro u memberU v
    have whole := walking.valid.root_component stack valid.active_stack successors severed u
      ((memScc u).mp memberU) v
    exact whole.trans (memScc v).symm
  have stays : ∀ v, v ∉ above ++ [cur] → (v ∈ s.stack ↔ v ∈ before.stack) := by
    intro v upper
    rw [memScc, not_or] at upper
    rw [stack, List.mem_append, List.mem_cons]
    simp [upper]
  have nodupScc : (above ++ [cur]).Nodup := by
    rw [List.nodup_append] at nodup ⊢
    exact ⟨nodup.1, by simp, fun a memberA b memberB =>
      nodup.2.2 a memberA b (List.mem_singleton.mp memberB ▸ List.mem_cons_self)⟩
  refine ⟨_, popScc_eq stack offAbove, ?_⟩
  exact
    { valid := by
        rw [popped_search]
        exact walking.valid.root_pop stack valid.active_stack successors severed
      marked := by
        intro v
        change _ ↔ v ∈ before.stack
        rw [popped_onStack]
        by_cases upper : v ∈ above ++ [cur]
        · rw [if_pos upper]
          have notOlder : v ∉ before.stack := fun inStack => offRest v inStack upper
          simp [notOlder]
        · rw [if_neg upper, walking.marked v]
          exact stays v upper
      keeps :=
        { callees := fun v => (popped_callees _ _ v).trans (walking.keeps.callees v)
          fns := walking.keeps.fns
          index := fun v met => (popped_index _ _ v).trans (walking.keeps.index v met)
          low := fun v met => (popped_lowlink _ _ v).trans (walking.keeps.low v met) }
      recursive := by
        intro v
        have sameVisited : (s.popped (above ++ [cur]) before.stack).visited v ↔ s.visited v := by
          simp [TarjanState.visited]
        have flags := walking.recursive v
        rw [sameVisited]
        change _ ↔ _ ∨ (_ ∧ _ ∧ v ∉ before.stack ∧ _)
        by_cases upper : v ∈ above ++ [cur]
        · -- it leaves the stack now
          have inStack : v ∈ s.stack := onStack v ((memScc v).mp upper)
          have met : s.visited v := walking.valid.visited_stack v inStack
          have unmetV : ¬ before.visited v := by
            cases (memScc v).mp upper with
            | inl inAbove => exact fresh v inAbove
            | inr isCur => exact isCur ▸ unmet
          have off : v ∉ before.stack := fun older => offRest v older upper
          have size := component_other nodupScc component upper
          simp only [popped_isRecursive, if_pos upper, Bool.or_eq_true, decide_eq_true_eq, size,
            flags, inStack, met, unmetV, off, not_true_eq_false, not_false_eq_true, true_and,
            false_and, and_false, or_false]
        · rw [popped_isRecursive, if_neg upper, flags, stays v upper]
      segment := ⟨[], rfl, by simp, by simp⟩
      met := by
        have met := walking.met
        simpa [TarjanState.visited] using met
      gone := by
        intro _
        unfold TarjanState.low
        rw [popped_lowlink]
        exact low.trans walking.number }

/-! ## The whole search -/

theorem strongconnect_spec (order : DictOrder count) :
    ∀ fuel, WalkSpec R fuel (strongconnect order fuel) := by
  intro fuel
  induction fuel with
  | zero =>
      intro cur active before _ _ _ unmet _ enough
      have := remaining_enter unmet
      omega
  | succ fuel ih =>
      intro cur active before valid marked leads unmet reaches enough
      have fewer := remaining_enter unmet
      have listed : ∀ w, R cur w ↔
          ∃ e ∈ order.edges (before.graph.node cur).callees, e.dstFn = w := by
        intro w
        rw [← leads]
        unfold CallGraph.Leads
        simp only [(order.edges_perm _).mem_iff]
      obtain ⟨s, ran, walking⟩ := considerSuccessors_spec ih valid leads unmet
        (order.edges (before.graph.node cur).callees) (before.enter cur) []
        (fun e member => (listed e.dstFn).mpr ⟨e, member, rfl⟩)
        (Walking.begin valid marked unmet reaches) (by omega)
      have all : ∀ w, R cur w → ∃ e ∈ [] ++ order.edges (before.graph.node cur).callees,
          e.dstFn = w := fun w follows => (listed w).mp follows
      have root : some (s.graph.node cur).tarjan.lowlink = (s.graph.node cur).tarjan.index ↔
          s.low cur = s.number cur := by
        have met := walking.met
        unfold TarjanState.visited at met
        unfold TarjanState.low TarjanState.number
        cases index : (s.graph.node cur).tarjan.index with
        | none => exact absurd index met
        | some index => simp
      unfold strongconnect
      by_cases low : s.low cur = s.number cur
      · obtain ⟨after, closed, walked⟩ := walking.close valid unmet all low
        refine ⟨after, ?_, walked⟩
        rw [bind_eq_ok]
        exact ⟨s, ran, by rw [if_pos (root.mpr low)]; exact closed⟩
      · refine ⟨s, ?_, walking.stay unmet all low⟩
        rw [bind_eq_ok]
        exact ⟨s, ran, by rw [if_neg fun same => low (root.mp same)]; rfl⟩

/-- Between the calls from `tarjan`. -/
structure Between (R : Fin count → Fin count → Prop) (before s : TarjanState count) : Prop where
  valid : s.search.Valid R []
  marked : s.Marked
  keeps : Grows before s
  recursive : MarksRecursive R before s

/-- Without a running call, the stack is empty. -/
theorem stack_eq_nil (valid : s.search.Valid R []) : s.stack = [] := by
  apply List.eq_nil_iff_forall_not_mem.mpr
  intro v member
  obtain ⟨g, isActive, -⟩ := valid.climbs v member
  exact absurd isActive List.not_mem_nil

theorem tarjanRoot_spec (order : DictOrder count) (leads : before.graph.Leads = R)
    (between : Between R before s) (n : Fin count) :
    ∃ after, (if (s.graph.node n).tarjan.index = none then strongconnect order count n s
        else .ok s) = .ok after ∧ Between R before after ∧ Grows s after ∧ after.visited n := by
  by_cases unmet : (s.graph.node n).tarjan.index = none
  · have enough : s.remaining ≤ count := by
      have bounded := List.countP_le_length (l := List.finRange count)
        (p := fun v => (s.graph.node v).tarjan.index = none)
      rwa [List.length_finRange] at bounded
    obtain ⟨after, ran, walked⟩ := strongconnect_spec order count n [] s between.valid
      between.marked (between.keeps.leads.trans leads) (by simpa [TarjanState.visited] using unmet)
      (by simp) enough
    rw [if_pos unmet]
    refine ⟨after, ran, ⟨walked.valid, walked.marked, between.keeps.trans walked.keeps, ?_⟩,
      walked.keeps, walked.met⟩
    intro v
    rw [walked.recursive v, between.recursive v, stack_eq_nil walked.valid,
      stack_eq_nil between.valid]
    constructor
    · rintro ((old | ⟨met, unmetV, rest⟩) | ⟨met, unmetV, rest⟩)
      · exact Or.inl old
      · exact Or.inr ⟨walked.keeps.visited met, unmetV, rest⟩
      · exact Or.inr ⟨met, fun early => unmetV (between.keeps.visited early), rest⟩
    · rintro (old | ⟨met, unmetV, rest⟩)
      · exact Or.inl (Or.inl old)
      · by_cases earlier : s.visited v
        · exact Or.inl (Or.inr ⟨earlier, unmetV, rest⟩)
        · exact Or.inr ⟨met, earlier, rest⟩
  · rw [if_neg unmet]
    exact ⟨s, rfl, between, Grows.refl s, unmet⟩

/-- The loop over the keys. -/
theorem tarjanRoots_spec (order : DictOrder count) (leads : before.graph.Leads = R)
    (keys : List (Fin count)) : ∀ s, Between R before s →
      ∃ after, keys.foldlM (fun s n => if (s.graph.node n).tarjan.index = none
          then strongconnect order count n s else .ok s) s = .ok after ∧
        Between R before after ∧ Grows s after ∧ ∀ n ∈ keys, after.visited n := by
  induction keys with
  | nil =>
      intro s between
      exact ⟨s, rfl, between, Grows.refl s, nofun⟩
  | cons n keys ih =>
      intro s between
      obtain ⟨middle, ran, next, grown, met⟩ := tarjanRoot_spec order leads between n
      obtain ⟨after, ranRest, done, later, rest⟩ := ih middle next
      refine ⟨after, ?_, done, grown.trans later, ?_⟩
      · rw [List.foldlM_cons, ran]
        exact ranRest
      · intro other member
        cases List.mem_cons.mp member with
        | inl same => exact same ▸ later.visited met
        | inr inside => exact rest other inside

/-- On a graph without marks, `tarjan` marks the functions whose component holds another
function. -/
theorem tarjan_spec (order : DictOrder count) (graph : CallGraph count)
    (unmarked : ∀ v, (graph.node v).tarjan.index = none ∧
      (graph.node v).tarjan.onStack = false) :
    ∃ after, tarjan order graph = .ok after ∧ after.fns = graph.fns ∧
      ∀ fn ∈ graph.fns, (after.node fn).isRecursive = true ↔
        (graph.node fn).isRecursive = true ∨ ∃ u, u ≠ fn ∧ Mutual graph.Leads fn u := by
  have start : Between graph.Leads ⟨graph, 0, []⟩ ⟨graph, 0, []⟩ :=
    { valid := Search.Valid.empty (fun v met => met (unmarked v).1) rfl
      marked := fun v => by simp [(unmarked v).2]
      keeps := Grows.refl _
      recursive := MarksRecursive.refl _ _ }
  have leads : (TarjanState.mk graph 0 []).graph.Leads = graph.Leads := rfl
  obtain ⟨s, ran, between, -, met⟩ := tarjanRoots_spec order leads (order.fns graph.fns) _ start
  refine ⟨s.graph, ?_, between.keeps.fns, ?_⟩
  · unfold tarjan
    rw [ran]
    rfl
  · intro fn member
    have visited := met fn ((order.fns_perm _).mem_iff.mpr member)
    have unvisited : ¬ TarjanState.visited ⟨graph, 0, []⟩ fn := fun early => early (unmarked fn).1
    rw [between.recursive fn, stack_eq_nil between.valid]
    simp [visited, unvisited]

end Search

end Shady.Callgraph
