import Mathlib.Data.List.Pairwise
import Mathlib.Logic.Relation
import Mathlib.Tactic

/-!
# The stack of a depth-first search for strongly connected components

A search numbers the vertices it meets and keeps them on a stack until their
component is complete. `low` of a vertex on the stack is the number of some
vertex on the stack that it reaches. `Valid` is the invariant of such a search,
with the active vertices (those whose call is running) as a parameter. When a
call ends, its vertex either stays, if `low` is below its number, or the stack
down to it is a component.
-/

set_option autoImplicit false

namespace Tarjan

variable {V : Type*}

section Components
variable (R : V → V → Prop)

abbrev Path (u v : V) : Prop := Relation.ReflTransGen R u v

/-- Each of the two vertices leads to the other. -/
def Mutual (u v : V) : Prop := Path R u v ∧ Path R v u

/-- `members` is one strongly connected component. -/
def IsComponent (members : V → Prop) : Prop :=
  ∀ u, members u → ∀ v, Mutual R u v ↔ members v

variable {R}

theorem Mutual.symm {u v : V} (both : Mutual R u v) : Mutual R v u := ⟨both.2, both.1⟩

theorem Mutual.trans {u v w : V} (first : Mutual R u v) (second : Mutual R v w) :
    Mutual R u w :=
  ⟨first.1.trans second.1, second.2.trans first.2⟩

/-- A set that edges do not leave is not left by paths. -/
theorem path_closed {closed : V → Prop} (step : ∀ u, closed u → ∀ v, R u v → closed v) {u v : V}
    (path : Path R u v) (inside : closed u) : closed v := by
  induction path with
  | refl => exact inside
  | tail _ taken ih => exact step _ ih _ taken

end Components

/-- What the search has recorded. -/
structure Search (V : Type*) where
  visited : V → Prop
  stack : List V
  dfs : V → Nat
  low : V → Nat
  counter : Nat

variable (R : V → V → Prop)

structure Search.Valid (active : List V) (s : Search V) : Prop where
  visited_stack : ∀ v ∈ s.stack, s.visited v
  sorted : s.stack.Pairwise fun above below => s.dfs below < s.dfs above
  fresh : ∀ v ∈ s.stack, s.dfs v < s.counter
  active_stack : ∀ g ∈ active, g ∈ s.stack
  finished : ∀ v, s.visited v → v ∉ active → ∀ w, R v w → s.visited w
  closed : ∀ v, s.visited v → v ∉ s.stack → ∀ w, R v w → s.visited w ∧ w ∉ s.stack
  climbs : ∀ v ∈ s.stack, ∃ g ∈ active, s.dfs g ≤ s.dfs v ∧ Path R v g
  covers : ∀ g ∈ active, ∀ v ∈ s.stack, s.dfs g ≤ s.dfs v → Path R g v
  low_le : ∀ v ∈ s.stack, s.low v ≤ s.dfs v
  low_path : ∀ v ∈ s.stack, ∃ w ∈ s.stack, s.dfs w = s.low v ∧ Path R v w

section Search
variable {R} {active : List V} {s : Search V}

theorem Search.Valid.nodup (valid : s.Valid R active) : s.stack.Nodup :=
  valid.sorted.imp fun {above below} less same => by
    rw [same] at less
    exact lt_irrefl _ less

/-- Down to a vertex the stack has larger numbers, below it smaller ones. -/
theorem Search.Valid.split (valid : s.Valid R active) {above rest : List V} {cur : V}
    (stack : s.stack = above ++ cur :: rest) :
    (∀ v ∈ above, s.dfs cur < s.dfs v) ∧ ∀ v ∈ rest, s.dfs v < s.dfs cur := by
  have sorted := valid.sorted
  rw [stack, List.pairwise_append, List.pairwise_cons] at sorted
  exact ⟨fun v member => sorted.2.2 v member cur List.mem_cons_self, sorted.2.1.1⟩

/-- A search that has met nothing yet. -/
theorem Search.Valid.empty (unvisited : ∀ v, ¬ s.visited v) (bare : s.stack = []) :
    s.Valid R [] where
  visited_stack := by simp [bare]
  sorted := by simp [bare]
  fresh := by simp [bare]
  active_stack := by simp
  finished := fun v met => absurd met (unvisited v)
  closed := fun v met => absurd met (unvisited v)
  climbs := by simp [bare]
  covers := by simp
  low_le := by simp [bare]
  low_path := by simp [bare]

end Search

/-! ## Steps -/

section Steps
variable {R} {active : List V} {s : Search V}

/-- The stack loses its upper part. -/
def Search.pop (s : Search V) (rest : List V) : Search V := { s with stack := rest }

/-- A call ends with `low` below the number: its vertex stays on the stack. -/
theorem Search.Valid.stay {cur : V} (valid : s.Valid R (cur :: active))
    (successors : ∀ w, R cur w → s.visited w) (lower : s.low cur < s.dfs cur) :
    s.Valid R active where
  visited_stack := valid.visited_stack
  sorted := valid.sorted
  fresh := valid.fresh
  active_stack := fun g member => valid.active_stack g (List.mem_cons_of_mem _ member)
  finished := by
    intro v met inactive w taken
    by_cases same : v = cur
    · exact successors w (same ▸ taken)
    · exact valid.finished v met (by simp [same, inactive]) w taken
  closed := valid.closed
  climbs := by
    intro v member
    obtain ⟨g, isActive, below, path⟩ := valid.climbs v member
    rcases List.mem_cons.mp isActive with rfl | old
    · -- from `cur` on to the vertex of its `low`, and from there to an older active one
      obtain ⟨w, onStack, number, further⟩ :=
        valid.low_path g (valid.active_stack g List.mem_cons_self)
      obtain ⟨h, activeH, belowH, last⟩ := valid.climbs w onStack
      rcases List.mem_cons.mp activeH with rfl | oldH
      · omega
      · exact ⟨h, oldH, by omega, (path.trans further).trans last⟩
    · exact ⟨g, old, below, path⟩
  covers := fun g isActive => valid.covers g (List.mem_cons_of_mem _ isActive)
  low_le := valid.low_le
  low_path := valid.low_path

section Root
variable {cur : V} {above rest : List V} (valid : s.Valid R (cur :: active))
  (stack : s.stack = above ++ cur :: rest) (older : ∀ g ∈ active, g ∈ rest)
  (successors : ∀ w, R cur w → s.visited w)
  (severed : ∀ v, v ∈ above ∨ v = cur → ∀ w ∈ rest, ¬ R v w)
include valid stack older successors severed

/-- Edges from the upper part of the stack end there or at a finished component. -/
theorem Search.Valid.root_successors {v w : V} (upper : v ∈ above ∨ v = cur) (taken : R v w) :
    s.visited w ∧ w ∉ rest := by
  refine ⟨?_, fun member => severed v upper w member taken⟩
  by_cases same : v = cur
  · exact successors w (same ▸ taken)
  · have inAbove : v ∈ above := upper.resolve_right same
    have onStack : v ∈ s.stack := stack ▸ List.mem_append_left _ inAbove
    refine valid.finished v (valid.visited_stack v onStack) ?_ w taken
    intro isActive
    rcases List.mem_cons.mp isActive with isCur | old
    · exact same isCur
    · have larger := (valid.split stack).1 v inAbove
      have smaller := (valid.split stack).2 v (older v old)
      omega

/-- A call ends with `low` at the number: the stack down to its vertex is a component. -/
theorem Search.Valid.root_component :
    IsComponent R fun v => v ∈ above ∨ v = cur := by
  have onStack : ∀ v, v ∈ above ∨ v = cur → v ∈ s.stack := by
    rintro v (inAbove | rfl)
    · exact stack ▸ List.mem_append_left _ inAbove
    · exact stack ▸ List.mem_append_right _ List.mem_cons_self
  have finishedClosed : ∀ u, s.visited u ∧ u ∉ s.stack → ∀ v, R u v →
      s.visited v ∧ v ∉ s.stack := fun u done v taken => valid.closed u done.1 done.2 v taken
  have upperClosed : ∀ u, ((u ∈ above ∨ u = cur) ∨ (s.visited u ∧ u ∉ s.stack)) → ∀ v, R u v →
      ((v ∈ above ∨ v = cur) ∨ (s.visited v ∧ v ∉ s.stack)) := by
    intro u inside v taken
    rcases inside with upper | done
    · have next := valid.root_successors stack older successors severed upper taken
      by_cases member : v ∈ s.stack
      · left
        rw [stack, List.mem_append, List.mem_cons] at member
        rcases member with inAbove | isCur | inRest
        · exact Or.inl inAbove
        · exact Or.inr isCur
        · exact absurd inRest next.2
      · exact Or.inr ⟨next.1, member⟩
    · exact Or.inr (finishedClosed u done v taken)
  have fromCur : ∀ v, v ∈ above ∨ v = cur → Mutual R cur v := by
    intro v upper
    constructor
    · apply valid.covers cur List.mem_cons_self v (onStack v upper)
      rcases upper with inAbove | rfl
      · exact ((valid.split stack).1 v inAbove).le
      · exact le_refl _
    · obtain ⟨g, isActive, -, path⟩ := valid.climbs v (onStack v upper)
      rcases List.mem_cons.mp isActive with rfl | old
      · exact path
      · rcases path_closed upperClosed path (Or.inl upper) with inside | done
        · have smaller := (valid.split stack).2 g (older g old)
          rcases inside with inAbove | rfl
          · have larger := (valid.split stack).1 g inAbove
            omega
          · omega
        · exact absurd (valid.active_stack g isActive) done.2
  intro u upperU v
  constructor
  · intro both
    rcases path_closed upperClosed both.1 (Or.inl upperU) with upper | done
    · exact upper
    · exact absurd (onStack u upperU) (path_closed finishedClosed both.2 done).2
  · intro upperV
    exact (fromCur u upperU).symm.trans (fromCur v upperV)

theorem Search.Valid.root_pop : (s.pop rest).Valid R active := by
  have onStack : ∀ v ∈ rest, v ∈ s.stack := fun v member =>
    stack ▸ List.mem_append_right _ (List.mem_cons_of_mem _ member)
  have isRest : ∀ v ∈ s.stack, s.dfs v < s.dfs cur → v ∈ rest := by
    intro v member smaller
    rw [stack, List.mem_append, List.mem_cons] at member
    rcases member with inAbove | rfl | inRest
    · have larger := (valid.split stack).1 v inAbove
      omega
    · omega
    · exact inRest
  exact
    { visited_stack := fun v member => valid.visited_stack v (onStack v member)
      sorted := by
        have sorted := valid.sorted
        rw [stack, List.pairwise_append, List.pairwise_cons] at sorted
        exact sorted.2.1.2
      fresh := fun v member => valid.fresh v (onStack v member)
      active_stack := older
      finished := by
        intro v met inactive w taken
        by_cases same : v = cur
        · exact successors w (same ▸ taken)
        · exact valid.finished v met (by simp [same, inactive]) w taken
      closed := by
        intro v met off w taken
        by_cases member : v ∈ s.stack
        · rw [stack, List.mem_append, List.mem_cons] at member
          rcases member with inAbove | isCur | inRest
          · exact valid.root_successors stack older successors severed (Or.inl inAbove) taken
          · exact valid.root_successors stack older successors severed (Or.inr isCur) taken
          · exact absurd inRest off
        · have done := valid.closed v met member w taken
          exact ⟨done.1, fun inRest => done.2 (onStack w inRest)⟩
      climbs := by
        intro v member
        obtain ⟨g, isActive, below, path⟩ := valid.climbs v (onStack v member)
        rcases List.mem_cons.mp isActive with rfl | old
        · have smaller := (valid.split stack).2 v member
          omega
        · exact ⟨g, old, below, path⟩
      covers := fun g isActive v member =>
        valid.covers g (List.mem_cons_of_mem _ isActive) v (onStack v member)
      low_le := fun v member => valid.low_le v (onStack v member)
      low_path := by
        intro v member
        obtain ⟨w, inside, number, path⟩ := valid.low_path v (onStack v member)
        have below := valid.low_le v (onStack v member)
        have smaller := (valid.split stack).2 v member
        exact ⟨w, isRest w inside (by omega), number, path⟩ }

end Root

section Begin
variable [DecidableEq V]

/-- A call begins: its vertex is numbered and goes on the stack. -/
def Search.push (s : Search V) (cur : V) : Search V where
  visited := fun v => v = cur ∨ s.visited v
  stack := cur :: s.stack
  dfs := fun v => if v = cur then s.counter else s.dfs v
  low := fun v => if v = cur then s.counter else s.low v
  counter := s.counter + 1

/-- `low` of a vertex takes that of a successor into account. -/
def Search.lower (s : Search V) (cur succ : V) : Search V :=
  { s with low := fun v => if v = cur then min (s.low cur) (s.low succ) else s.low v }

/-- `low` of a vertex takes a number into account. -/
def Search.lowerTo (s : Search V) (cur : V) (number : Nat) : Search V :=
  { s with low := fun v => if v = cur then min (s.low cur) number else s.low v }

theorem Search.Valid.push (valid : s.Valid R active) {cur : V} (unvisited : ¬ s.visited cur)
    (leads : ∀ g ∈ active, Path R g cur) : (s.push cur).Valid R (cur :: active) := by
  have off : ∀ v ∈ s.stack, v ≠ cur := by
    rintro v member rfl
    exact unvisited (valid.visited_stack v member)
  have offActive : ∀ g ∈ active, g ≠ cur := fun g member => off g (valid.active_stack g member)
  have sameDfs : ∀ v ∈ s.stack, (s.push cur).dfs v = s.dfs v := fun v member =>
    if_neg (off v member)
  have curDfs : (s.push cur).dfs cur = s.counter := if_pos rfl
  have sameLow : ∀ v ∈ s.stack, (s.push cur).low v = s.low v := fun v member =>
    if_neg (off v member)
  have curLow : (s.push cur).low cur = s.counter := if_pos rfl
  exact
    { visited_stack := by
        intro v member
        rcases List.mem_cons.mp member with same | old
        · exact Or.inl same
        · exact Or.inr (valid.visited_stack v old)
      sorted := by
        apply List.pairwise_cons.mpr
        constructor
        · intro v member
          rw [sameDfs v member, curDfs]
          exact valid.fresh v member
        · apply valid.sorted.imp_of_mem
          intro v w left right less
          rw [sameDfs v left, sameDfs w right]
          exact less
      fresh := by
        intro v member
        change (s.push cur).dfs v < s.counter + 1
        rcases List.mem_cons.mp member with rfl | old
        · rw [curDfs]
          omega
        · rw [sameDfs v old]
          have := valid.fresh v old
          omega
      active_stack := by
        intro g member
        rcases List.mem_cons.mp member with rfl | old
        · exact List.mem_cons_self
        · exact List.mem_cons_of_mem _ (valid.active_stack g old)
      finished := by
        intro v met inactive w taken
        rw [List.mem_cons, not_or] at inactive
        rcases met with same | met
        · exact absurd same inactive.1
        · exact Or.inr (valid.finished v met inactive.2 w taken)
      closed := by
        intro v met off w taken
        rw [Search.push, List.mem_cons, not_or] at off
        rcases met with same | met
        · exact absurd same off.1
        · have inner := valid.closed v met off.2 w taken
          refine ⟨Or.inr inner.1, ?_⟩
          rw [Search.push, List.mem_cons, not_or]
          refine ⟨?_, inner.2⟩
          rintro rfl
          exact unvisited inner.1
      climbs := by
        intro v member
        rcases List.mem_cons.mp member with rfl | old
        · exact ⟨v, List.mem_cons_self, le_refl _, Relation.ReflTransGen.refl⟩
        · obtain ⟨g, isActive, below, path⟩ := valid.climbs v old
          refine ⟨g, List.mem_cons_of_mem _ isActive, ?_, path⟩
          rw [sameDfs g (valid.active_stack g isActive), sameDfs v old]
          exact below
      covers := by
        intro g isActive v member below
        rcases List.mem_cons.mp member with rfl | old
        · rcases List.mem_cons.mp isActive with rfl | oldActive
          · exact Relation.ReflTransGen.refl
          · exact leads g oldActive
        · rw [sameDfs v old] at below
          rcases List.mem_cons.mp isActive with rfl | oldActive
          · -- the new vertex has the largest number
            rw [curDfs] at below
            have := valid.fresh v old
            omega
          · rw [sameDfs g (valid.active_stack g oldActive)] at below
            exact valid.covers g oldActive v old below
      low_le := by
        intro v member
        rcases List.mem_cons.mp member with rfl | old
        · rw [curLow, curDfs]
        · rw [sameLow v old, sameDfs v old]
          exact valid.low_le v old
      low_path := by
        intro v member
        rcases List.mem_cons.mp member with rfl | old
        · exact ⟨v, List.mem_cons_self, curDfs.trans curLow.symm, Relation.ReflTransGen.refl⟩
        · obtain ⟨w, onStack, same, path⟩ := valid.low_path v old
          refine ⟨w, List.mem_cons_of_mem _ onStack, ?_, path⟩
          rw [sameDfs w onStack, sameLow v old]
          exact same }

/-- The number of a vertex on the stack that is reached. -/
theorem Search.Valid.lowerTo (valid : s.Valid R active) {cur w : V} (onStack : w ∈ s.stack)
    (path : Path R cur w) : (s.lowerTo cur (s.dfs w)).Valid R active where
  visited_stack := valid.visited_stack
  sorted := valid.sorted
  fresh := valid.fresh
  active_stack := valid.active_stack
  finished := valid.finished
  closed := valid.closed
  climbs := valid.climbs
  covers := valid.covers
  low_le := by
    intro v member
    have below := valid.low_le v member
    simp only [Search.lowerTo]
    split_ifs with same
    · subst same
      exact (min_le_left _ _).trans below
    · exact below
  low_path := by
    intro v member
    simp only [Search.lowerTo]
    split_ifs with same
    · subst same
      rcases le_total (s.low v) (s.dfs w) with smaller | larger
      · rw [min_eq_left smaller]
        exact valid.low_path v member
      · rw [min_eq_right larger]
        exact ⟨w, onStack, rfl, path⟩
    · exact valid.low_path v member

theorem Search.Valid.lower (valid : s.Valid R active) {cur succ : V} (onStack : succ ∈ s.stack)
    (taken : R cur succ) : (s.lower cur succ).Valid R active := by
  obtain ⟨w, inside, number, path⟩ := valid.low_path succ onStack
  have lowered := valid.lowerTo inside (path.head taken)
  rw [number] at lowered
  exact lowered

theorem Search.lowerTo_eq_self {cur : V} {number : Nat} (smaller : s.low cur ≤ number) :
    s.lowerTo cur number = s := by
  have same : (fun v => if v = cur then min (s.low cur) number else s.low v) = s.low := by
    funext v
    split_ifs with isCur
    · rw [isCur, min_eq_left smaller]
    · rfl
  unfold Search.lowerTo
  rw [same]

theorem Search.lower_eq_self {cur succ : V} (smaller : s.low cur ≤ s.low succ) :
    s.lower cur succ = s :=
  lowerTo_eq_self smaller

end Begin

end Steps

end Tarjan
