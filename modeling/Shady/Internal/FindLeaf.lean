import Shady.Internal.Divergence
import Mathlib.Logic.Relation

/-!
# The leaf that is scheduled next

`builtin_find_schedulable_leaf` keeps one lane and goes through the others in the order of
their indices. A lane below the kept one takes over, and so does an unrelated lane that is
not farther from the cursor, whatever was seen before it.
-/

set_option autoImplicit false

namespace Shady.Internal

variable {size : Nat}

/-- `forward_distance`, with the wrap-around of a `u32`. -/
def forwardDistance (x dst maxMod : Nat) : Nat := (dst + 2 ^ 32 - x) % 2 ^ 32 % maxMod

section Select
variable (s : Scheduler size)

def reduce2 (aIndex bIndex : Lane size) : Lane size :=
  let a := s.schedulerVector aIndex
  let b := s.schedulerVector bIndex
  if isParent a b then aIndex
  else if isParent b a then bIndex
  else
    let aDist := forwardDistance aIndex s.schedulerCursor s.actualSubgroupSize
    let bDist := forwardDistance bIndex s.schedulerCursor s.actualSubgroupSize
    if aDist < bDist then aIndex else bIndex

/-- The loop over the lanes from `i` on. -/
def leafLoop : Nat → Nat → Lane size → Lane size
  | 0, _, reduced => reduced
  | turns + 1, i, reduced =>
      if inside : i < size then leafLoop turns (i + 1) (reduce2 s reduced ⟨i, inside⟩) else reduced

/-- `reduced` after the loop. -/
def selectLeaf [NeZero size] : Lane size := leafLoop s (s.actualSubgroupSize - 1) 1 0

def builtinFindSchedulableLeaf [NeZero size] : Scheduler size := scheduleLeaf (selectLeaf s) s

/-! ## Takeovers -/

/-- The lanes that the loop goes through, and the one it starts with. -/
def InUse (u : Lane size) : Prop := u.val < s.actualSubgroupSize

instance (u : Lane size) : Decidable (InUse s u) := inferInstanceAs (Decidable (_ < _))

/-- A strictly nested mask, or the same mask at a greater depth. -/
def StrictlyBelow (inner outer : TreeNode size) : Prop :=
  inner.threads ⊂ outer.threads ∨ (inner.threads = outer.threads ∧ outer.depth < inner.depth)

instance (inner outer : TreeNode size) : Decidable (StrictlyBelow inner outer) :=
  inferInstanceAs (Decidable (_ ∨ _))

/-- No lane has a node strictly below the node of this one. -/
def IsLowest (u : Lane size) : Prop :=
  ∀ v, InUse s v → ¬ StrictlyBelow (s.schedulerVector v) (s.schedulerVector u)

def LaminarFamily : Prop :=
  ∀ u v, InUse s u → InUse s v → Laminar (s.schedulerVector u) (s.schedulerVector v)

/-- The first lane after `a` that `reduce2` prefers to it. -/
structure TakesOver (a b : Lane size) : Prop where
  later : a < b
  inUse : InUse s b
  preferred : reduce2 s a b = b
  first : ∀ c, a < c → c < b → reduce2 s a c = a

/-- No lane takes over from this one. -/
def Kept (a : Lane size) : Prop := ∀ c, a < c → InUse s c → reduce2 s a c = a

/-- Where the takeovers from lane 0 on end, no earlier lane has a node strictly below. -/
def NonePassedBy [NeZero size] : Prop :=
  ∀ x, Relation.ReflTransGen (TakesOver s) 0 x → Kept s x →
    ∀ w, w < x → ¬ StrictlyBelow (s.schedulerVector w) (s.schedulerVector x)

variable {s}

theorem reduce2_cases (a b : Lane size) : reduce2 s a b = a ∨ reduce2 s a b = b := by
  unfold reduce2
  dsimp only
  split_ifs
  · exact .inl rfl
  · exact .inr rfl
  · exact .inl rfl
  · exact .inr rfl

/-- A lane strictly below always takes over. -/
theorem reduce2_of_below {a b : Lane size} (laminar : Laminar (s.schedulerVector a) (s.schedulerVector b))
    (below : StrictlyBelow (s.schedulerVector b) (s.schedulerVector a)) : reduce2 s a b = b := by
  have notAbove : ¬ isParent (s.schedulerVector a) (s.schedulerVector b) = true := by
    rw [isParent_iff]
    intro above
    cases below with
    | inl nested => exact nested.2 above.1
    | inr deeper => exact Nat.not_lt.mpr above.2 deeper.2
  have isChild : isParent (s.schedulerVector b) (s.schedulerVector a) = true := by
    rw [isParent_iff]
    cases below with
    | inl nested => exact ⟨nested.1, laminar.2.2 nested⟩
    | inr deeper => exact ⟨deeper.1.subset, deeper.2.le⟩
  unfold reduce2
  rw [if_neg notAbove, if_pos isChild]

/-- The loop follows the takeovers to their end. -/
theorem leafLoop_follows (start : Lane size) (turns : Nat) : ∀ (i : Nat) (reduced : Lane size),
    i + turns = s.actualSubgroupSize → Relation.ReflTransGen (TakesOver s) start reduced → reduced.val < i →
    (∀ c, reduced < c → c.val < i → reduce2 s reduced c = reduced) →
    Relation.ReflTransGen (TakesOver s) start (leafLoop s turns i reduced) ∧ Kept s (leafLoop s turns i reduced) := by
  induction turns with
  | zero =>
      intro i reduced all chain _ kept
      refine ⟨chain, fun c later inUse => kept c later ?_⟩
      have upTo : c.val < s.actualSubgroupSize := inUse
      omega
  | succ turns ih =>
      intro i reduced all chain before kept
      unfold leafLoop
      split
      case isFalse outside =>
        refine ⟨chain, fun c later _ => kept c later ?_⟩
        have bound := c.isLt
        omega
      case isTrue inside =>
        cases reduce2_cases (s := s) reduced ⟨i, inside⟩ with
        | inl stays =>
            rw [stays]
            refine ih (i + 1) reduced (by omega) chain (by omega) fun c later upTo => ?_
            by_cases same : c.val = i
            · have equal : c = ⟨i, inside⟩ := Fin.ext same
              rw [equal, stays]
            · exact kept c later (by omega)
        | inr taken =>
            rw [taken]
            have used : i < s.actualSubgroupSize := by omega
            refine ih (i + 1) _ (by omega) (chain.tail ⟨before, used, taken, kept⟩) (Nat.lt_succ_self i) ?_
            intro c later upTo
            have after : i < c.val := later
            omega

theorem selectLeaf_follows [NeZero size] :
    Relation.ReflTransGen (TakesOver s) 0 (selectLeaf s) ∧ Kept s (selectLeaf s) := by
  by_cases used : 1 ≤ s.actualSubgroupSize
  · refine leafLoop_follows 0 _ 1 0 (by omega) Relation.ReflTransGen.refl ?_ ?_
    · rw [Fin.val_zero]
      exact Nat.one_pos
    · intro c later upTo
      have positive : 0 < c.val := later
      omega
  · refine ⟨?_, fun c later inUse => ?_⟩
    · have none : s.actualSubgroupSize - 1 = 0 := by omega
      rw [selectLeaf, none]
      exact Relation.ReflTransGen.refl
    · have upTo : c.val < s.actualSubgroupSize := inUse
      omega

/-- What the takeovers lead to is in use, or lane 0. -/
theorem inUse_of_later [NeZero size] {x w : Lane size} (chain : Relation.ReflTransGen (TakesOver s) 0 x)
    (before : w < x) : InUse s w ∧ InUse s x := by
  cases Relation.ReflTransGen.cases_tail chain with
  | inl same =>
      rw [same] at before
      exact absurd before (Fin.not_lt_zero w)
  | inr more =>
      obtain ⟨p, -, step⟩ := more
      exact ⟨Nat.lt_trans before step.inUse, step.inUse⟩

/-- The takeovers end at one lane. -/
theorem TakesOver.unique {a b c : Lane size} (first : TakesOver s a b) (second : TakesOver s a c) : b = c := by
  have notBefore : ∀ {b c}, TakesOver s a b → TakesOver s a c → ¬ b < c := by
    intro b c first second before
    have stays := second.first b first.later before
    rw [first.preferred] at stays
    exact absurd stays first.later.ne'
  exact le_antisymm (not_lt.mp (notBefore second first)) (not_lt.mp (notBefore first second))

theorem kept_unique {a x y : Lane size} (first : Relation.ReflTransGen (TakesOver s) a x) (endsFirst : Kept s x)
    (second : Relation.ReflTransGen (TakesOver s) a y) (endsSecond : Kept s y) : x = y := by
  have stuck : ∀ {x z}, Kept s x → ¬ TakesOver s x z := by
    intro x z kept step
    have stays := kept z step.later step.inUse
    rw [step.preferred] at stays
    exact absurd stays step.later.ne'
  induction first using Relation.ReflTransGen.head_induction_on with
  | refl =>
      cases Relation.ReflTransGen.cases_head second with
      | inl same => exact same
      | inr more =>
          obtain ⟨z, step, -⟩ := more
          exact absurd step (stuck endsFirst)
  | head step rest ih =>
      cases Relation.ReflTransGen.cases_head second with
      | inl same => exact absurd step (stuck (same ▸ endsSecond))
      | inr more =>
          obtain ⟨z, step', rest'⟩ := more
          exact ih ((step.unique step') ▸ rest')

end Select

local instance threeLanes : NeZero 3 := ⟨by decide⟩

/-- A fork inside a control: thread 1 went its own way, and thread 2 waits on the token that
    thread 0 has not joined on. -/
def waitingLast : Scheduler 3 where
  schedulerVector := ![⟨{0}, 2⟩, ⟨{1}, 2⟩, ⟨{0, 2}, 1⟩]
  resumeAt := fun _ => 0
  nextFn := 0
  activeBranch := ⟨{0}, 2⟩
  schedulerCursor := 2
  actualSubgroupSize := 3

theorem waitingLast_laminar : LaminarFamily waitingLast := by
  unfold LaminarFamily Laminar
  decide

/-- With the cursor at thread 0, the thread that went its own way is selected. -/
def cursorAtFirst : Scheduler 3 := { waitingLast with schedulerCursor := 0 }

end Shady.Internal
