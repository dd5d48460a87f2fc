import Mathlib.Data.Finset.Max
import Mathlib.Data.Fintype.Basic
import Mathlib.Tactic

/-!
# The divergence scheduler

The variables of the scheduler and its built-in functions. A function is called by a
group of threads in lockstep: what one thread computes for itself is a function of the
thread, and an intrinsic over the active threads is a function of the group.
-/

set_option autoImplicit false

namespace Shady.Internal

/-- The index of a thread in the subgroup (`SubgroupLocalInvocationId`). -/
abbrev Lane (size : Nat) := Fin size

/-- `mask_t` -/
abbrev Mask (size : Nat) := Finset (Lane size)

@[ext]
structure TreeNode (size : Nat) where
  threads : Mask size
  depth : Nat
  deriving DecidableEq

structure JoinPoint (size : Nat) where
  node : TreeNode size
  destination : Nat
  payload : Nat

/-- The subgroup variables. A `u32` is its value. -/
structure Scheduler (size : Nat) where
  schedulerVector : Lane size → TreeNode size
  resumeAt : Lane size → Nat
  nextFn : Nat
  activeBranch : TreeNode size
  schedulerCursor : Nat
  actualSubgroupSize : Nat

/-- The threads that run a function together. There is at least one. -/
structure Group (size : Nat) where
  threads : Mask size
  nonempty : threads.Nonempty

variable {size : Nat}

/-- The thread that `OpGroupNonUniformElect` elects, and whose value
`OpGroupNonUniformBroadcastFirst` returns. -/
def Group.first (group : Group size) : Lane size := group.threads.min' group.nonempty

theorem Group.first_mem (group : Group size) : group.first ∈ group.threads :=
  Finset.min'_mem _ _

/-- A `u32` plus one. -/
def nextDepth (depth : Nat) : Nat := (depth + 1) % 2 ^ 32

def builtinInitScheduler (group : Group size) (s : Scheduler size) : Scheduler size :=
  let initMask := group.threads
  let treeNode1 : TreeNode size := ⟨initMask, 1⟩
  { s with
    schedulerVector := fun u => if u ∈ group.threads then treeNode1 else s.schedulerVector u
    activeBranch := treeNode1
    actualSubgroupSize := group.threads.card }

def builtinEntryJoinPoint (group : Group size) : JoinPoint size :=
  let initMask := group.threads
  let treeNode0 : TreeNode size := ⟨initMask, 0⟩
  ⟨treeNode0, 0, 0⟩

/-- The join point each thread of the group gets, and the scheduler after. -/
def builtinCreateControlPoint (group : Group size) (joinDestination : Nat)
    (payload : Lane size → Nat) (s : Scheduler size) :
    (Lane size → JoinPoint size) × Scheduler size :=
  let currMask := group.threads
  let depth := (s.schedulerVector group.first).depth
  let treeNode : TreeNode size := ⟨currMask, depth⟩
  (fun u => ⟨treeNode, joinDestination, payload u⟩,
    { s with
      schedulerVector := fun u =>
        if u ∈ group.threads then
          { s.schedulerVector u with depth := nextDepth (s.schedulerVector u).depth }
        else s.schedulerVector u })

/-- One turn of the loop that partitions the destinations: the threads still in it write
what the first of them elects, and those it is the destination of leave. -/
def forkTurn (branchDestination : Lane size → Nat) (active : Mask size)
    (nonempty : active.Nonempty) (s : Scheduler size) : Mask size × Scheduler size :=
  let elected := branchDestination (active.min' nonempty)
  let ballot := active.filter fun u => elected = branchDestination u
  (active.filter fun u => elected ≠ branchDestination u,
    { s with
      resumeAt := fun u => if u ∈ active then elected else s.resumeAt u
      schedulerVector := fun u =>
        if u ∈ active then { s.schedulerVector u with threads := ballot }
        else s.schedulerVector u })

/-- The turns of that loop. A turn retires the thread it elects, so there are at most as
many of them as there are threads. -/
def forkLoop (branchDestination : Lane size → Nat) :
    Nat → Mask size → Scheduler size → Scheduler size
  | 0, _, s => s
  | turns + 1, active, s =>
      if nonempty : active.Nonempty then
        let (left, s') := forkTurn branchDestination active nonempty s
        forkLoop branchDestination turns left s'
      else s

/-- Disagreement on the destination increases the depth of every branch of a fork. -/
def deepenBranches (group : Group size) (branchDestination : Lane size → Nat)
    (s : Scheduler size) : Scheduler size :=
  let firstBranch := branchDestination group.first
  let uniformBranch :=
    group.threads = group.threads.filter fun u => firstBranch = branchDestination u
  if uniformBranch then s
  else
    { s with
      schedulerVector := fun u =>
        if u ∈ group.threads then
          { s.schedulerVector u with depth := nextDepth (s.schedulerVector u).depth }
        else s.schedulerVector u }

def builtinFork (group : Group size) (branchDestination : Lane size → Nat)
    (s : Scheduler size) : Scheduler size :=
  let deepened := deepenBranches group branchDestination s
  let forked := forkLoop branchDestination group.threads.card group.threads deepened
  { forked with
    nextFn := branchDestination group.first
    activeBranch := forked.schedulerVector group.first }

/-- The end of `builtin_find_schedulable_leaf`, `reduced` being the lane it settles on. -/
def scheduleLeaf (reduced : Lane size) (s : Scheduler size) : Scheduler size :=
  { s with
    nextFn := s.resumeAt reduced
    activeBranch := s.schedulerVector reduced }

def builtinYield (group : Group size) (resumeTarget : Nat) (reduced : Lane size)
    (s : Scheduler size) : Scheduler size :=
  let stored : Scheduler size :=
    { s with resumeAt := fun u => if u ∈ group.threads then resumeTarget else s.resumeAt u }
  scheduleLeaf reduced
    { stored with
      schedulerCursor := (stored.schedulerCursor + 1) % 2 ^ 32 % stored.actualSubgroupSize }

def builtinJoin (group : Group size) (joinAt : Lane size → Nat) (token : Lane size → TreeNode size)
    (reduced : Lane size) (s : Scheduler size) : Scheduler size :=
  scheduleLeaf reduced
    { s with
      resumeAt := fun u => if u ∈ group.threads then joinAt u else s.resumeAt u
      schedulerVector := fun u => if u ∈ group.threads then token u else s.schedulerVector u }

def isParent (child maybeParent : TreeNode size) : Bool :=
  if child.threads ∪ maybeParent.threads ≠ maybeParent.threads then false
  else decide (child.depth ≥ maybeParent.depth)

/-- The ballot over `threads`, those that are in the dispatcher loop. -/
def builtinGetActiveBranch (threads : Mask size) (s : Scheduler size) : Mask size :=
  threads.filter fun u =>
    decide (s.resumeAt u = s.nextFn) && isParent (s.schedulerVector u) s.activeBranch

theorem isParent_iff {child maybeParent : TreeNode size} :
    isParent child maybeParent = true ↔
      child.threads ⊆ maybeParent.threads ∧ maybeParent.depth ≤ child.depth := by
  simp [isParent]

theorem mem_builtinGetActiveBranch {threads : Mask size} {s : Scheduler size} {u : Lane size} :
    u ∈ builtinGetActiveBranch threads s ↔ u ∈ threads ∧ s.resumeAt u = s.nextFn ∧
      (s.schedulerVector u).threads ⊆ s.activeBranch.threads ∧
      s.activeBranch.depth ≤ (s.schedulerVector u).depth := by
  simp [builtinGetActiveBranch, isParent_iff]

/-! ## What the loop of a fork leaves -/

section Fork
variable (branchDestination : Lane size → Nat)

theorem forkTurn_left_lt {active : Mask size} (nonempty : active.Nonempty)
    (s : Scheduler size) : (forkTurn branchDestination active nonempty s).1.card < active.card := by
  apply Finset.card_lt_card
  apply Finset.filter_ssubset.mpr
  exact ⟨active.min' nonempty, Finset.min'_mem _ _, by simp⟩

/-- Run to its end, the loop gives each thread its own destination and, as its mask, the
threads that share it. -/
theorem forkLoop_spec (turns : Nat) (active : Mask size) (s : Scheduler size)
    (enough : active.card ≤ turns) (u : Lane size) :
    (forkLoop branchDestination turns active s).resumeAt u =
        (if u ∈ active then branchDestination u else s.resumeAt u) ∧
      (forkLoop branchDestination turns active s).schedulerVector u =
        (if u ∈ active then
          ⟨active.filter fun w => branchDestination w = branchDestination u,
            (s.schedulerVector u).depth⟩
        else s.schedulerVector u) := by
  induction turns generalizing active s with
  | zero =>
      have empty : active = ∅ := Finset.card_eq_zero.mp (Nat.le_zero.mp enough)
      simp [forkLoop, empty]
  | succ turns ih =>
      unfold forkLoop
      split
      case isFalse none =>
        simp [Finset.not_nonempty_iff_eq_empty.mp none]
      case isTrue nonempty =>
        have fewer := forkTurn_left_lt branchDestination nonempty s
        obtain ⟨resumes, nodes⟩ :=
          ih (forkTurn branchDestination active nonempty s).1
            (forkTurn branchDestination active nonempty s).2 (by omega)
        set elected := branchDestination (active.min' nonempty) with electedEq
        have left : ∀ w, w ∈ (forkTurn branchDestination active nonempty s).1 ↔
            w ∈ active ∧ elected ≠ branchDestination w := by
          intro w
          simp [forkTurn, electedEq]
        constructor
        · rw [resumes]
          by_cases member : u ∈ active
          · by_cases same : elected = branchDestination u
            · simp [member, same, forkTurn, ← electedEq]
            · simp [left, member, same]
          · simp [member, forkTurn]
        · rw [nodes]
          by_cases member : u ∈ active
          · by_cases same : elected = branchDestination u
            · simp [member, same, forkTurn, ← electedEq, eq_comm]
            · have others : (forkTurn branchDestination active nonempty s).1.filter
                  (fun w => branchDestination w = branchDestination u) =
                  active.filter fun w => branchDestination w = branchDestination u := by
                ext w
                simp only [Finset.mem_filter, left]
                constructor
                · exact fun inside => ⟨inside.1.1, inside.2⟩
                · exact fun inside => ⟨⟨inside.1, fun agree => same (agree.trans inside.2)⟩,
                    inside.2⟩
              rw [if_pos ((left u).mpr ⟨member, same⟩), if_pos member, others]
              simp [forkTurn, member]
          · simp [member, forkTurn]

theorem deepenBranches_resumeAt (group : Group size) (s : Scheduler size) :
    (deepenBranches group branchDestination s).resumeAt = s.resumeAt := by
  simp only [deepenBranches]
  split <;> rfl

/-- The depth goes up by one unless all threads of the group agree on the destination. -/
theorem deepenBranches_schedulerVector (group : Group size) (s : Scheduler size) (u : Lane size) :
    (deepenBranches group branchDestination s).schedulerVector u =
      if u ∈ group.threads ∧
          ¬ ∀ w ∈ group.threads, branchDestination group.first = branchDestination w then
        { s.schedulerVector u with depth := nextDepth (s.schedulerVector u).depth }
      else s.schedulerVector u := by
  have agree : (group.threads =
      group.threads.filter fun w => branchDestination group.first = branchDestination w) ↔
      ∀ w ∈ group.threads, branchDestination group.first = branchDestination w := by
    rw [eq_comm, Finset.filter_eq_self]
  simp only [deepenBranches, agree]
  by_cases disagree : ∀ w ∈ group.threads, branchDestination group.first = branchDestination w
  · rw [if_pos disagree, if_neg fun both => both.2 disagree]
  · rw [if_neg disagree]
    by_cases member : u ∈ group.threads
    · rw [if_pos ⟨member, disagree⟩]
      exact if_pos member
    · rw [if_neg fun both => member both.1]
      exact if_neg member

theorem builtinFork_resumeAt (group : Group size) (s : Scheduler size) (u : Lane size) :
    (builtinFork group branchDestination s).resumeAt u =
      if u ∈ group.threads then branchDestination u else s.resumeAt u := by
  refine ((forkLoop_spec branchDestination _ _ _ (Nat.le_refl _) u).1).trans ?_
  rw [deepenBranches_resumeAt]

theorem builtinFork_schedulerVector (group : Group size) (s : Scheduler size) (u : Lane size) :
    (builtinFork group branchDestination s).schedulerVector u =
      if u ∈ group.threads then
        ⟨group.threads.filter fun w => branchDestination w = branchDestination u,
          if ∀ w ∈ group.threads, branchDestination group.first = branchDestination w then
            (s.schedulerVector u).depth
          else nextDepth (s.schedulerVector u).depth⟩
      else s.schedulerVector u := by
  refine ((forkLoop_spec branchDestination _ _ _ (Nat.le_refl _) u).2).trans ?_
  rw [deepenBranches_schedulerVector]
  by_cases member : u ∈ group.threads
  · rw [if_pos member, if_pos member]
    split
    case isTrue both => rw [if_neg both.2]
    case isFalse agree => rw [if_pos (not_not.mp fun disagree => agree ⟨member, disagree⟩)]
  · rw [if_neg member, if_neg member, if_neg fun both => member both.1]

/-- Runs of the loop: it goes on while some thread is left in it. -/
inductive ForkRun : Mask size → Scheduler size → Scheduler size → Prop
  | done (s : Scheduler size) : ForkRun ∅ s s
  | turn {active : Mask size} {s s' : Scheduler size} (nonempty : active.Nonempty)
      (rest : ForkRun (forkTurn branchDestination active nonempty s).1
        (forkTurn branchDestination active nonempty s).2 s') : ForkRun active s s'

theorem forkLoop_runs (turns : Nat) (active : Mask size) (s : Scheduler size)
    (enough : active.card ≤ turns) :
    ForkRun branchDestination active s (forkLoop branchDestination turns active s) := by
  induction turns generalizing active s with
  | zero =>
      have empty : active = ∅ := Finset.card_eq_zero.mp (Nat.le_zero.mp enough)
      rw [empty]
      exact ForkRun.done s
  | succ turns ih =>
      unfold forkLoop
      split
      case isFalse none =>
        rw [Finset.not_nonempty_iff_eq_empty.mp none]
        exact ForkRun.done s
      case isTrue nonempty =>
        have fewer := forkTurn_left_lt branchDestination nonempty s
        exact ForkRun.turn nonempty (ih _ _ (by omega))

/-- The loop ends in one way only. -/
theorem ForkRun.unique {active : Mask size} {s s₁ s₂ : Scheduler size}
    (first : ForkRun branchDestination active s s₁) (second : ForkRun branchDestination active s s₂) :
    s₁ = s₂ := by
  induction first with
  | done s =>
      cases second with
      | done => rfl
      | turn nonempty rest => exact absurd nonempty Finset.not_nonempty_empty
  | turn nonempty rest ih =>
      cases second with
      | done => exact absurd nonempty Finset.not_nonempty_empty
      | turn nonempty' rest' => exact ih rest'

/-- What a fork leaves: each thread of the group resumes at its own destination, with the
    threads that share it as its mask, one level deeper where the destinations disagree. -/
structure Forked (group : Group size) (s s' : Scheduler size) : Prop where
  resumes : ∀ u ∈ group.threads, s'.resumeAt u = branchDestination u
  sameMask : ∀ u ∈ group.threads, ∀ v ∈ group.threads,
    ((s'.schedulerVector u).threads = (s'.schedulerVector v).threads ↔
      branchDestination u = branchDestination v)
  disjoint : ∀ u ∈ group.threads, ∀ v ∈ group.threads,
    branchDestination u ≠ branchDestination v →
      Disjoint (s'.schedulerVector u).threads (s'.schedulerVector v).threads
  covers : ∀ w, w ∈ group.threads ↔ ∃ u ∈ group.threads, w ∈ (s'.schedulerVector u).threads
  depth : ∀ u ∈ group.threads, (s'.schedulerVector u).depth =
    if ∀ v ∈ group.threads, ∀ w ∈ group.threads, branchDestination v = branchDestination w then
      (s.schedulerVector u).depth
    else nextDepth (s.schedulerVector u).depth
  favourite : ∃ u ∈ group.threads, s'.nextFn = branchDestination u ∧ s'.activeBranch = s'.schedulerVector u
  untouched : ∀ u, u ∉ group.threads →
    s'.resumeAt u = s.resumeAt u ∧ s'.schedulerVector u = s.schedulerVector u
  cursor : s'.schedulerCursor = s.schedulerCursor ∧ s'.actualSubgroupSize = s.actualSubgroupSize

theorem agree_iff (group : Group size) :
    (∀ w ∈ group.threads, branchDestination group.first = branchDestination w) ↔
      ∀ v ∈ group.threads, ∀ w ∈ group.threads, branchDestination v = branchDestination w := by
  constructor
  · intro agree v inside w inside'
    exact (agree v inside).symm.trans (agree w inside')
  · exact fun all => all group.first group.first_mem

theorem builtinFork_mask (group : Group size) (s : Scheduler size) {u : Lane size}
    (member : u ∈ group.threads) : ((builtinFork group branchDestination s).schedulerVector u).threads =
      group.threads.filter fun w => branchDestination w = branchDestination u := by
  rw [builtinFork_schedulerVector, if_pos member]

theorem forkLoop_cursor (turns : Nat) (active : Mask size) (s : Scheduler size) :
    (forkLoop branchDestination turns active s).schedulerCursor = s.schedulerCursor ∧
      (forkLoop branchDestination turns active s).actualSubgroupSize = s.actualSubgroupSize := by
  induction turns generalizing active s with
  | zero => exact ⟨rfl, rfl⟩
  | succ turns ih =>
      unfold forkLoop
      split
      case isFalse => exact ⟨rfl, rfl⟩
      case isTrue nonempty => exact ih _ _

theorem deepenBranches_cursor (group : Group size) (s : Scheduler size) :
    (deepenBranches group branchDestination s).schedulerCursor = s.schedulerCursor ∧
      (deepenBranches group branchDestination s).actualSubgroupSize = s.actualSubgroupSize := by
  simp only [deepenBranches]
  split <;> exact ⟨rfl, rfl⟩

theorem builtinFork_forked (group : Group size) (s : Scheduler size) :
    Forked branchDestination group s (builtinFork group branchDestination s) := by
  have mask := fun {u} => builtinFork_mask (u := u) branchDestination group s
  constructor
  · intro u member
    rw [builtinFork_resumeAt, if_pos member]
  · intro u member v member'
    rw [mask member, mask member']
    constructor
    · intro same
      have inside : u ∈ group.threads.filter fun w => branchDestination w = branchDestination u :=
        Finset.mem_filter.mpr ⟨member, rfl⟩
      rw [same] at inside
      exact (Finset.mem_filter.mp inside).2
    · intro same
      rw [same]
  · intro u member v member' other
    rw [mask member, mask member', Finset.disjoint_left]
    intro w inside inside'
    exact other ((Finset.mem_filter.mp inside).2.symm.trans (Finset.mem_filter.mp inside').2)
  · intro w
    constructor
    · intro member
      refine ⟨w, member, ?_⟩
      rw [mask member]
      exact Finset.mem_filter.mpr ⟨member, rfl⟩
    · intro covered
      obtain ⟨u, member, inside⟩ := covered
      rw [mask member] at inside
      exact (Finset.mem_filter.mp inside).1
  · intro u member
    rw [builtinFork_schedulerVector, if_pos member]
    simp only [agree_iff]
  · exact ⟨group.first, group.first_mem, rfl, rfl⟩
  · intro u missing
    rw [builtinFork_resumeAt, builtinFork_schedulerVector, if_neg missing, if_neg missing]
    exact ⟨rfl, rfl⟩
  · obtain ⟨cursor, actual⟩ := forkLoop_cursor branchDestination group.threads.card group.threads
      (deepenBranches group branchDestination s)
    obtain ⟨cursor', actual'⟩ := deepenBranches_cursor branchDestination group s
    exact ⟨cursor.trans cursor', actual.trans actual'⟩

/-- A fork ends: its loop runs until no thread is left in it, in one way, and partitions the
    group by destination. -/
theorem builtinFork_partitions (group : Group size) (s : Scheduler size) :
    (∃ s', ForkRun branchDestination group.threads (deepenBranches group branchDestination s) s' ∧
      (∀ s'', ForkRun branchDestination group.threads (deepenBranches group branchDestination s) s'' → s'' = s') ∧
      builtinFork group branchDestination s = { s' with
        nextFn := branchDestination group.first
        activeBranch := s'.schedulerVector group.first }) ∧
      Forked branchDestination group s (builtinFork group branchDestination s) := by
  have runs := forkLoop_runs branchDestination group.threads.card group.threads
    (deepenBranches group branchDestination s) (Nat.le_refl _)
  refine ⟨⟨_, runs, fun s'' run => ?_, rfl⟩, builtinFork_forked branchDestination group s⟩
  exact run.unique branchDestination runs

end Fork

end Shady.Internal
