import Mathlib.Data.List.Nodup
import Mathlib.Logic.Relation
import Mathlib.Tactic

/-!
# Dominance in a rooted graph and its approximation by parent maps

A walk carries the list of the vertices it visits, last one first. `Dominates`
is the path definition of dominance. The second half is about iterative
algorithms that keep one parent for each vertex: `Keeps` says that no dominator
has been lost so far, `Within` that whatever is still above a vertex lies on
every short walk to it. A map with both properties, for walks as long as the
graph is large, is the dominator tree.
-/

set_option autoImplicit false

namespace Dominance

section Walks
variable {V : Type*} (edge : V → V → Prop) (root : V)

/-- `Walk v visited`: a walk from the root to `v`, with its vertices in reverse order. -/
inductive Walk : V → List V → Prop
  | start : Walk root [root]
  | step {p v : V} {visited : List V} (before : Walk p visited) (taken : edge p v) :
      Walk v (v :: visited)

def Reachable (v : V) : Prop := ∃ visited, Walk edge root v visited

/-- Every walk from the root to `v` goes through `d`. -/
def Dominates (d v : V) : Prop := ∀ visited, Walk edge root v visited → d ∈ visited

def StrictlyDominates (d v : V) : Prop := Dominates edge root d v ∧ d ≠ v

/-- The strict dominator of `v` that all others dominate. -/
def ImmediatelyDominates (d v : V) : Prop :=
  StrictlyDominates edge root d v ∧
    ∀ other, StrictlyDominates edge root other v → Dominates edge root other d

variable {edge root}

theorem Walk.head_eq {v : V} {visited : List V} (walk : Walk edge root v visited) :
    ∃ rest, visited = v :: rest := by
  cases walk with
  | start => exact ⟨[], rfl⟩
  | step before taken => exact ⟨_, rfl⟩

theorem Walk.self_mem {v : V} {visited : List V} (walk : Walk edge root v visited) :
    v ∈ visited := by
  obtain ⟨rest, rfl⟩ := walk.head_eq
  exact List.mem_cons_self

theorem Walk.root_mem {v : V} {visited : List V} (walk : Walk edge root v visited) :
    root ∈ visited := by
  induction walk with
  | start => exact List.mem_cons_self
  | step before taken ih => exact List.mem_cons_of_mem _ ih

/-- The part of a walk up to one of its vertices. -/
theorem Walk.upTo {v u : V} {visited : List V} (walk : Walk edge root v visited)
    (member : u ∈ visited) :
    ∃ part, Walk edge root u part ∧ part <:+ visited := by
  induction walk with
  | start =>
      obtain rfl : u = root := by simpa using member
      exact ⟨_, Walk.start, List.suffix_refl _⟩
  | step before taken ih =>
      rcases List.mem_cons.mp member with rfl | earlier
      · exact ⟨_, Walk.step before taken, List.suffix_refl _⟩
      · obtain ⟨part, walk, suffix⟩ := ih earlier
        exact ⟨part, walk, suffix.trans (List.suffix_cons _ _)⟩

/-- One walk after another. -/
theorem Walk.after {edge : V → V → Prop} {a b c d : V} {first second : List V}
    (before : Walk edge a b first) (taken : edge b c) (rest : Walk edge c d second) :
    Walk edge a d (second ++ first) := by
  induction rest with
  | start => exact before.step taken
  | step _ next ih => exact ih.step next

/-- A walk stays where `good` holds, or there is a first vertex where it does not. -/
theorem Walk.split {edge : V → V → Prop} {a b : V} {visited : List V} (good : V → Prop)
    (walk : Walk edge a b visited) (start : good a) :
    (∀ v ∈ visited, good v) ∨ ∃ u c first second, Walk edge a u first ∧ (∀ v ∈ first, good v) ∧
      edge u c ∧ ¬ good c ∧ Walk edge c b second ∧ visited = second ++ first := by
  induction walk with
  | start =>
      left
      intro v member
      exact List.mem_singleton.mp member ▸ start
  | @step p v visited before taken ih =>
      cases ih with
      | inl all =>
          by_cases here : good v
          · left
            intro w member
            cases List.mem_cons.mp member with
            | inl same => exact same ▸ here
            | inr earlier => exact all w earlier
          · exact Or.inr ⟨p, v, visited, [v], before, all, taken, here, .start, rfl⟩
      | inr found =>
          obtain ⟨u, c, first, second, walk, all, leaves, bad, rest, rfl⟩ := found
          exact Or.inr ⟨u, c, first, v :: second, walk, all, leaves, bad, rest.step taken, rfl⟩

/-- Up to another vertex than the last, the walk is shorter. -/
theorem Walk.upTo_shorter {v u : V} {visited : List V} (walk : Walk edge root v visited)
    (member : u ∈ visited) (other : u ≠ v) :
    ∃ part, Walk edge root u part ∧ part ⊆ visited ∧ part.length < visited.length := by
  cases walk with
  | start =>
      exact absurd (by simpa using member) other
  | step before taken =>
      rcases List.mem_cons.mp member with rfl | earlier
      · exact absurd rfl other
      · obtain ⟨part, walk, suffix⟩ := before.upTo earlier
        refine ⟨part, walk, fun x inside => List.mem_cons_of_mem _ (suffix.subset inside), ?_⟩
        have := suffix.length_le
        simp only [List.length_cons]
        omega

/-- Cutting out its cycles leaves a walk that visits no vertex twice. -/
theorem Walk.simple {v : V} {visited : List V} (walk : Walk edge root v visited) :
    ∃ part, Walk edge root v part ∧ part ⊆ visited ∧ part.Nodup := by
  induction walk with
  | start => exact ⟨_, Walk.start, List.Subset.refl _, List.nodup_singleton _⟩
  | @step p v visited before taken ih =>
      obtain ⟨part, walk, subset, nodup⟩ := ih
      by_cases again : v ∈ part
      · obtain ⟨shorter, walkAgain, suffix⟩ := walk.upTo again
        refine ⟨shorter, walkAgain, fun x inside => ?_, suffix.sublist.nodup nodup⟩
        exact List.mem_cons_of_mem _ (subset (suffix.subset inside))
      · refine ⟨v :: part, Walk.step walk taken, ?_, List.nodup_cons.mpr ⟨again, nodup⟩⟩
        intro x inside
        rcases List.mem_cons.mp inside with rfl | earlier
        · exact List.mem_cons_self
        · exact List.mem_cons_of_mem _ (subset earlier)

theorem reachable_root : Reachable edge root root := ⟨_, Walk.start⟩

theorem Reachable.step {p v : V} (before : Reachable edge root p) (taken : edge p v) :
    Reachable edge root v := by
  obtain ⟨visited, walk⟩ := before
  exact ⟨_, Walk.step walk taken⟩

theorem reachable_iff_reflTransGen (v : V) :
    Reachable edge root v ↔ Relation.ReflTransGen edge root v := by
  constructor
  · rintro ⟨visited, walk⟩
    induction walk with
    | start => exact Relation.ReflTransGen.refl
    | step before taken ih => exact ih.tail taken
  · intro path
    induction path with
    | refl => exact reachable_root
    | tail _ taken ih => exact ih.step taken

theorem Walk.mem_reachable {v u : V} {visited : List V} (walk : Walk edge root v visited)
    (member : u ∈ visited) : Reachable edge root u := by
  obtain ⟨part, walk, -⟩ := walk.upTo member
  exact ⟨part, walk⟩

theorem dominates_refl (v : V) : Dominates edge root v v := fun _ walk => walk.self_mem

theorem Dominates.trans {a b c : V} (first : Dominates edge root a b)
    (second : Dominates edge root b c) : Dominates edge root a c := by
  intro visited walk
  obtain ⟨part, walkToB, suffix⟩ := walk.upTo (second visited walk)
  exact suffix.subset (first part walkToB)

theorem Dominates.antisymm {a b : V} (reachable : Reachable edge root a)
    (first : Dominates edge root a b) (second : Dominates edge root b a) : a = b := by
  by_contra different
  -- the shortest walk to either of them would contain a shorter one
  have none : ∀ n visited, visited.length ≤ n → ¬ Walk edge root a visited := by
    intro n
    induction n with
    | zero =>
        intro visited short walk
        obtain ⟨rest, rfl⟩ := walk.head_eq
        simp at short
    | succ n ih =>
        intro visited short walk
        obtain ⟨toB, walkB, -, shorterB⟩ :=
          walk.upTo_shorter (second visited walk) (Ne.symm different)
        obtain ⟨toA, walkA, -, shorterA⟩ := walkB.upTo_shorter (first toB walkB) different
        exact ih toA (by omega) walkA
  obtain ⟨visited, walk⟩ := reachable
  exact none _ visited (le_refl _) walk

/-- If neither of two vertices dominates the other one, every vertex can be reached without
one of them. -/
theorem exists_walk_without {a b : V} {toA toB : List V} (walkA : Walk edge root a toA)
    (walkB : Walk edge root b toB) (withoutB : b ∉ toA) (withoutA : a ∉ toB) {v : V}
    (reachable : Reachable edge root v) :
    ∃ visited, Walk edge root v visited ∧ (a ∉ visited ∨ b ∉ visited) := by
  obtain ⟨long, walk⟩ := reachable
  induction walk with
  | start =>
      refine ⟨_, Walk.start, ?_⟩
      by_cases isA : a = root
      · right
        rintro isB
        obtain rfl := List.mem_singleton.mp isB
        exact withoutB walkA.root_mem
      · left
        simpa using isA
  | @step p v _ _ taken ih =>
      obtain ⟨visited, walk, away⟩ := ih
      by_cases isA : v = a
      · exact ⟨toA, isA ▸ walkA, Or.inr withoutB⟩
      · by_cases isB : v = b
        · exact ⟨toB, isB ▸ walkB, Or.inl withoutA⟩
        · refine ⟨_, walk.step taken, ?_⟩
          simpa [Ne.symm isA, Ne.symm isB] using away

/-- The dominators of a vertex are ordered by dominance. -/
theorem Dominates.comparable {a b v : V} (reachable : Reachable edge root v)
    (first : Dominates edge root a v) (second : Dominates edge root b v) :
    Dominates edge root a b ∨ Dominates edge root b a := by
  by_contra neither
  simp only [Dominates, not_or, not_forall] at neither
  obtain ⟨⟨toB, walkB, withoutA⟩, ⟨toA, walkA, withoutB⟩⟩ := neither
  obtain ⟨visited, walk, away⟩ := exists_walk_without walkA walkB withoutB withoutA reachable
  cases away with
  | inl awayA => exact awayA (first visited walk)
  | inr awayB => exact awayB (second visited walk)

theorem Walk.mono {fewer : V → V → Prop} (within : ∀ p v, fewer p v → edge p v) {v : V}
    {visited : List V} (walk : Walk fewer root v visited) : Walk edge root v visited := by
  induction walk with
  | start => exact Walk.start
  | step _ taken ih => exact ih.step (within _ _ taken)

/-- With fewer edges there are fewer walks to avoid a vertex. -/
theorem Dominates.mono {fewer : V → V → Prop} (within : ∀ p v, fewer p v → edge p v) {d v : V}
    (dominates : Dominates edge root d v) : Dominates fewer root d v := by
  intro visited walk
  exact dominates visited (walk.mono within)

theorem Dominates.of_edge {d p v : V} (dominates : Dominates edge root d v)
    (other : d ≠ v) (taken : edge p v) : Dominates edge root d p := by
  intro visited walk
  rcases List.mem_cons.mp (dominates _ (Walk.step walk taken)) with same | earlier
  · exact absurd same other
  · exact earlier

/-- What lies on a walk before its end goes on somewhere. -/
theorem Walk.goesOn {v u : V} {visited : List V} (walk : Walk edge root v visited) (member : u ∈ visited)
    (other : u ≠ v) : ∃ w, edge u w := by
  induction walk with
  | start => exact absurd (List.mem_singleton.mp member) other
  | @step p v visited before taken ih =>
      cases List.mem_cons.mp member with
      | inl same => exact absurd same other
      | inr earlier =>
          by_cases last : u = p
          · exact ⟨v, last ▸ taken⟩
          · exact ih earlier last

section EnteredAt
variable {part : V → Prop} {h : V}

/-- What a set is entered at dominates its vertices. -/
theorem dominates_of_entered (entered : ∀ p v, part v → ¬ part p → edge p v → v = h)
    (first : part root → root = h) {v : V} (inside : part v) : Dominates edge root h v := by
  intro visited walk
  induction walk with
  | start => exact first inside ▸ List.mem_cons_self
  | @step p v visited before taken ih =>
      by_cases insideP : part p
      · exact List.mem_cons_of_mem _ (ih insideP)
      · exact entered p v inside insideP taken ▸ List.mem_cons_self

theorem entered_inside (entered : ∀ p v, part v → ¬ part p → edge p v → v = h)
    (first : part root → root = h) {v : V} (inside : part v) (reachable : Reachable edge root v) : part h := by
  obtain ⟨visited, walk⟩ := reachable
  induction walk with
  | start => exact first inside ▸ inside
  | @step p v visited before taken ih =>
      by_cases insideP : part p
      · exact ih insideP
      · exact entered p v inside insideP taken ▸ inside

/-- Some walk to a vertex stays away from what it strictly dominates. -/
theorem exists_walk_avoiding {a d : V} (reachable : Reachable edge root a) (other : d ≠ a)
    (below : Dominates edge root a d) : ∃ visited, Walk edge root a visited ∧ d ∉ visited := by
  obtain ⟨long, longWalk⟩ := reachable
  obtain ⟨visited, walk, -, simple⟩ := longWalk.simple
  refine ⟨visited, walk, fun member => ?_⟩
  obtain ⟨part, walkToD, suffix⟩ := walk.upTo member
  obtain ⟨rest, rfl⟩ := walk.head_eq
  obtain ⟨rest', rfl⟩ := walkToD.head_eq
  cases List.suffix_cons_iff.mp suffix with
  | inl whole => exact other (List.cons.inj whole).1
  | inr later => exact (List.nodup_cons.mp simple).1 (later.subset (below _ walkToD))

/-- Between what a set is entered at and its vertices there are only vertices of the set. -/
theorem between_of_entered (entered : ∀ p v, part v → ¬ part p → edge p v → v = h)
    (first : part root → root = h) {d v : V} (inside : part v) (reachable : Reachable edge root v)
    (below : Dominates edge root h d) (above : Dominates edge root d v) : part d := by
  by_contra outside
  have insideH := entered_inside entered first inside reachable
  obtain ⟨long, longWalk⟩ := reachable
  have reachableH := longWalk.mem_reachable (dominates_of_entered entered first inside long longWalk)
  have other : d ≠ h := fun same => outside (same ▸ insideH)
  obtain ⟨toHead, walkToHead, avoids⟩ := exists_walk_avoiding reachableH other below
  have avoiding : ∀ u visited, Walk edge root u visited → part u → ∃ visited', Walk edge root u visited' ∧ d ∉ visited' := by
    intro u visited walk
    induction walk with
    | start => exact fun insideRoot => ⟨toHead, first insideRoot ▸ walkToHead, avoids⟩
    | @step p u visited before taken ih =>
        intro insideU
        by_cases insideP : part p
        · obtain ⟨visited', walk', away⟩ := ih insideP
          refine ⟨u :: visited', walk'.step taken, fun member => ?_⟩
          cases List.mem_cons.mp member with
          | inl same => exact outside (same ▸ insideU)
          | inr earlier => exact away earlier
        · exact ⟨toHead, entered p u insideU insideP taken ▸ walkToHead, avoids⟩
  obtain ⟨visited', walk', away⟩ := avoiding v long longWalk inside
  exact away (above visited' walk')

end EnteredAt

theorem dominates_of_edges {d v : V} (nonroot : v ≠ root)
    (all : ∀ p, edge p v → Dominates edge root d p) : Dominates edge root d v := by
  intro visited walk
  cases walk with
  | start => exact absurd rfl nonroot
  | step before taken => exact List.mem_cons_of_mem _ (all _ taken _ before)

/-- A predecessor that dominates all predecessors is the immediate dominator. -/
theorem immediatelyDominates_of_edge {p v : V} (nonroot : v ≠ root) (other : p ≠ v)
    (taken : edge p v) (all : ∀ q, edge q v → Dominates edge root p q) :
    ImmediatelyDominates edge root p v :=
  ⟨⟨dominates_of_edges nonroot all, other⟩,
    fun _ strict => strict.1.of_edge strict.2 taken⟩

/-- Only simple walks matter, so in a finite graph only short ones do. -/
theorem dominates_of_short {vertices : List V} {d v : V}
    (finite : ∀ u, Reachable edge root u → u ∈ vertices)
    (short : ∀ visited, Walk edge root v visited → visited.length ≤ vertices.length →
      d ∈ visited) : Dominates edge root d v := by
  intro visited walk
  obtain ⟨part, simple, subset, nodup⟩ := walk.simple
  have covered : part ⊆ vertices := fun u inside => finite u (simple.mem_reachable inside)
  exact subset (short part simple (List.subperm_of_subset nodup covered).length_le)

end Walks

/-! ## Parent maps -/

section ParentMaps
variable {V : Type*} (edge : V → V → Prop) (root : V) (parent : V → Option V)

/-- `a` is `v`, its parent, the parent of that one, and so on. -/
def Above (v a : V) : Prop := Relation.ReflTransGen (fun x y => parent x = some y) v a

/-- Whatever dominates a vertex is the vertex or dominates its parent. -/
def Keeps : Prop :=
  ∀ v p, parent v = some p → ∀ d, StrictlyDominates edge root d v → Dominates edge root d p

/-- Above a vertex there is only what every walk of up to `bound` vertices visits. -/
def Within (bound : V → Nat) : Prop :=
  ∀ v a, Above parent v a → ∀ visited, Walk edge root v visited →
    visited.length ≤ bound v → a ∈ visited

/-- What a parent map needs to be a forest over the reachable vertices. -/
structure IsTree (rank : V → Nat) : Prop where
  root_none : parent root = none
  total : ∀ v, Reachable edge root v → v ≠ root → ∃ p, parent v = some p
  closed : ∀ v p, parent v = some p → Reachable edge root p
  lower : ∀ v p, parent v = some p → rank p < rank v

variable {edge root parent}

theorem Above.refl (v : V) : Above parent v v := Relation.ReflTransGen.refl

theorem Above.step {v p a : V} (next : parent v = some p) (above : Above parent p a) :
    Above parent v a := Relation.ReflTransGen.head next above

theorem Above.trans {v a b : V} (first : Above parent v a) (second : Above parent a b) :
    Above parent v b := Relation.ReflTransGen.trans first second

theorem above_iff (v a : V) :
    Above parent v a ↔ a = v ∨ ∃ p, parent v = some p ∧ Above parent p a := by
  constructor
  · intro above
    rcases Relation.ReflTransGen.cases_head above with same | ⟨p, next, rest⟩
    · exact Or.inl same.symm
    · exact Or.inr ⟨p, next, rest⟩
  · rintro (rfl | ⟨p, next, rest⟩)
    · exact Above.refl _
    · exact rest.step next

theorem IsTree.rank_le {rank : V → Nat} (tree : IsTree edge root parent rank) {v a : V}
    (above : Above parent v a) : rank a ≤ rank v := by
  induction above with
  | refl => exact le_refl _
  | tail _ next ih => exact (tree.lower _ _ next).le.trans ih

theorem IsTree.above_root {rank : V → Nat} (tree : IsTree edge root parent rank) {a : V}
    (above : Above parent root a) : a = root := by
  rcases (above_iff root a).mp above with same | ⟨p, next, -⟩
  · exact same
  · simp [tree.root_none] at next

/-- No dominator is missing above a vertex. -/
theorem Keeps.above {rank : V → Nat} (tree : IsTree edge root parent rank)
    (keeps : Keeps edge root parent) :
    ∀ v, Reachable edge root v → ∀ d, Dominates edge root d v → Above parent v d := by
  intro v
  induction hrank : rank v using Nat.strong_induction_on generalizing v with
  | _ n ih =>
      intro reachable d dominates
      by_cases same : d = v
      · exact same ▸ Above.refl d
      · by_cases isRoot : v = root
        · -- the root has no dominator but itself
          subst isRoot
          exact absurd (by simpa using dominates _ Walk.start) same
        · obtain ⟨p, next⟩ := tree.total v reachable isRoot
          have below := tree.lower v p next
          exact (ih (rank p) (by omega) p rfl (tree.closed v p next) d
            (keeps v p next d ⟨dominates, same⟩)).step next

/-- Between a vertex and one of its dominators all vertices are dominated. -/
theorem Keeps.between {rank : V → Nat} (tree : IsTree edge root parent rank)
    (keeps : Keeps edge root parent) {v q d : V} (above : Above parent v q)
    (below : Above parent q d) (dominates : Dominates edge root d v) :
    Dominates edge root d q := by
  induction above using Relation.ReflTransGen.head_induction_on with
  | refl => exact dominates
  | @head x y next rest ih =>
      apply ih
      have lower := tree.lower x y next
      have upper := (tree.rank_le rest).trans' (tree.rank_le below)
      exact keeps x y next d ⟨dominates, by rintro rfl; omega⟩

/-- One vertex gets a parent that lies on all walks of the next length. -/
theorem Within.improve {rank : V → Nat} {updated : V → Option V} {bound next : V → Nat}
    {n q : V} {k : Nat} (within : Within edge root parent bound)
    (tree : IsTree edge root updated rank) (above : updated n = some q)
    (frame : ∀ v, v ≠ n → updated v = parent v ∧ next v = bound v)
    (low : ∀ v, k ≤ bound v) (top : ∀ v, next v ≤ k + 1) (improved : next n = k + 1)
    (lies : ∀ visited, Walk edge root n visited → visited.length ≤ k + 1 → q ∈ visited) :
    Within edge root updated next := by
  have lowNext : ∀ v, k ≤ next v := by
    intro v
    by_cases same : v = n
    · rw [same, improved]
      exact k.le_succ
    · exact (frame v same).2 ▸ low v
  intro v a chain
  induction chain using Relation.ReflTransGen.head_induction_on with
  | refl => exact fun visited walk _ => walk.self_mem
  | @head x y step rest ih =>
      intro visited walk short
      have onWalk : y ∈ visited := by
        by_cases same : x = n
        · subst same
          obtain rfl : y = q := Option.some.inj (step.symm.trans above)
          exact lies visited walk (improved ▸ short)
        · have old : parent x = some y := (frame x same).1 ▸ step
          exact within x y ((Above.refl y).step old) visited walk ((frame x same).2 ▸ short)
      have different : y ≠ x := by
        rintro rfl
        exact absurd (tree.lower y y step) (lt_irrefl _)
      -- the walk up to the parent is shorter, hence within every bound
      obtain ⟨part, walkToY, subset, shorter⟩ := walk.upTo_shorter onWalk different
      have := top x
      have := lowNext y
      exact subset (ih part walkToY (by omega))

/-- A map that has lost no dominator and has only dominators left. -/
theorem dominates_iff_above {rank : V → Nat} {vertices : List V}
    (tree : IsTree edge root parent rank) (keeps : Keeps edge root parent)
    (finite : ∀ u, Reachable edge root u → u ∈ vertices)
    (within : Within edge root parent fun _ => vertices.length)
    {v : V} (reachable : Reachable edge root v) (d : V) :
    Dominates edge root d v ↔ Above parent v d := by
  constructor
  · exact keeps.above tree v reachable d
  · intro above
    exact dominates_of_short finite fun visited walk short => within v d above visited walk short

/-- A way down the tree through vertices with a property goes through all that lie between. -/
theorem IsTree.down_iff {rank : V → Nat} (tree : IsTree edge root parent rank) {good : V → Prop} {a v : V} :
    Relation.ReflTransGen (fun p c => good p ∧ parent c = some p) a v ↔
      Above parent v a ∧ ∀ d, Above parent v d → Above parent d a → d ≠ v → good d := by
  constructor
  · intro down
    induction down with
    | refl =>
        refine ⟨Above.refl a, fun d up down other => absurd ?_ other⟩
        cases (above_iff a d).mp up with
        | inl same => exact same
        | inr further =>
            obtain ⟨p, next, rest⟩ := further
            have less := tree.lower a p next
            have back := tree.rank_le down
            have forth := tree.rank_le rest
            omega
    | @tail b c _ step ih =>
        refine ⟨ih.1.step step.2, fun d up down other => ?_⟩
        cases (above_iff c d).mp up with
        | inl same => exact absurd same other
        | inr further =>
            obtain ⟨p, next, rest⟩ := further
            obtain rfl : b = p := Option.some.inj (step.2.symm.trans next)
            by_cases last : d = b
            · exact last ▸ step.1
            · exact ih.2 d rest down last
  · rintro ⟨above, between⟩
    induction above using Relation.ReflTransGen.head_induction_on with
    | refl => exact Relation.ReflTransGen.refl
    | @head c p next rest ih =>
        have less := tree.lower c p next
        refine (ih fun d up down other => between d (up.step next) down ?_).tail
          ⟨between p ((Above.refl p).step next) rest ?_, next⟩
        · rintro rfl
          have forth := tree.rank_le up
          omega
        · rintro rfl
          exact Nat.lt_irrefl _ less

/-- In the dominator tree the parent is the immediate dominator. -/
theorem immediatelyDominates_of_exact {rank : V → Nat}
    (tree : IsTree edge root parent rank)
    (exact : ∀ v, Reachable edge root v → ∀ d, Dominates edge root d v ↔ Above parent v d)
    {v p : V} (reachable : Reachable edge root v) (next : parent v = some p) :
    ImmediatelyDominates edge root p v := by
  have below := tree.lower v p next
  refine ⟨⟨(exact v reachable p).mpr ((Above.refl p).step next), by rintro rfl; omega⟩, ?_⟩
  intro other strict
  rcases (above_iff v other).mp ((exact v reachable other).mp strict.1) with same | ⟨q, nextQ, above⟩
  · exact absurd same strict.2
  · obtain rfl : p = q := Option.some.inj (next.symm.trans nextQ)
    exact (exact p (tree.closed v p next) other).mpr above

end ParentMaps

end Dominance
