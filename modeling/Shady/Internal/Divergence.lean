import Shady.Internal.Scheduler
import Shady.Library.Transition

/-!
# Threads under the scheduler

The threads of a subgroup call the scheduler in groups and then return to the
dispatcher loop, which goes on when all of them are back. Each thread carries the join
points of the control constructs it is inside of, innermost first, and joins on the
innermost one. Which lane `builtin_find_schedulable_leaf` settles on is open, as long as
no live lane holds a strictly smaller part of its mask.
-/

set_option autoImplicit false

namespace Shady.Internal

/-- A join point as one call created it. The payload, which differs from thread to thread
and which the scheduler never reads, is left out. -/
structure Token (size : Nat) where
  serial : Nat
  node : TreeNode size
  destination : Nat
  deriving DecidableEq

/-- `absent` threads were not there at the entry. `suspended` ones forked or yielded, and
resume at `resume_at`. -/
inductive Status (size : Nat)
  | absent
  | running
  | suspended
  | waiting (token : Token size)
  deriving DecidableEq

structure Subgroup (size : Nat) where
  scheduler : Scheduler size
  status : Lane size → Status size
  tokens : Lane size → List (Token size)
  created : Nat

inductive Op (size : Nat)
  | createControlPoint (group : Group size) (joinDestination : Nat) (payload : Lane size → Nat)
  | fork (group : Group size) (branchDestination : Lane size → Nat)
  | yield (group : Group size) (resumeTarget : Nat) (reduced : Lane size)
  | join (group : Group size) (token : Lane size → Token size) (reduced : Lane size)
  | getActiveBranch

variable {size : Nat}

namespace Subgroup

abbrev node (s : Subgroup size) (u : Lane size) : TreeNode size := s.scheduler.schedulerVector u

def live (s : Subgroup size) : Mask size := Finset.univ.filter fun u => s.status u ≠ .absent

/-- All threads are back in the dispatcher loop. -/
def Idle (s : Subgroup size) : Prop := ∀ u, s.status u ≠ .running

instance (s : Subgroup size) : Decidable s.Idle := inferInstanceAs (Decidable (∀ _, _))

end Subgroup

/-- No live lane holds a strictly smaller part of the mask of `reduced`. -/
def IsLeaf (live : Mask size) (vector : Lane size → TreeNode size) (reduced : Lane size) : Prop :=
  reduced ∈ live ∧ ∀ v ∈ live, ¬ (vector v).threads ⊂ (vector reduced).threads

instance (live : Mask size) (vector : Lane size → TreeNode size) (reduced : Lane size) :
    Decidable (IsLeaf live vector reduced) := inferInstanceAs (Decidable (_ ∧ _))

def Token.of (serial : Nat) (point : JoinPoint size) : Token size :=
  ⟨serial, point.node, point.destination⟩

/-- The threads of `group` enter with the variables of the subgroup as `memory` has them. -/
def enter (group : Group size) (memory : Scheduler size) : Subgroup size where
  scheduler := builtinInitScheduler group memory
  status u := if u ∈ group.threads then .running else .absent
  tokens u := if u ∈ group.threads then [Token.of 0 (builtinEntryJoinPoint group)] else []
  created := 1

def step (s : Subgroup size) : Op size → Option (Subgroup size)
  | .createControlPoint group joinDestination payload =>
      if ∀ u ∈ group.threads, s.status u = .running then
        let (points, scheduler) :=
          builtinCreateControlPoint group joinDestination payload s.scheduler
        some { s with
          scheduler
          tokens := fun u =>
            if u ∈ group.threads then Token.of s.created (points u) :: s.tokens u else s.tokens u
          created := s.created + 1 }
      else none
  | .fork group branchDestination =>
      if ∀ u ∈ group.threads, s.status u = .running then
        some { s with
          scheduler := builtinFork group branchDestination s.scheduler
          status := fun u => if u ∈ group.threads then .suspended else s.status u }
      else none
  | .yield group resumeTarget reduced =>
      let scheduler := builtinYield group resumeTarget reduced s.scheduler
      if (∀ u ∈ group.threads, s.status u = .running) ∧
          IsLeaf s.live scheduler.schedulerVector reduced then
        some { s with
          scheduler
          status := fun u => if u ∈ group.threads then .suspended else s.status u }
      else none
  | .join group token reduced =>
      let scheduler := builtinJoin group (fun u => (token u).destination)
        (fun u => (token u).node) reduced s.scheduler
      if (∀ u ∈ group.threads, s.status u = .running ∧ (s.tokens u).head? = some (token u)) ∧
          IsLeaf s.live scheduler.schedulerVector reduced then
        some { s with
          scheduler
          status := fun u => if u ∈ group.threads then .waiting (token u) else s.status u
          tokens := fun u => if u ∈ group.threads then (s.tokens u).tail else s.tokens u }
      else none
  | .getActiveBranch =>
      if s.Idle then
        let active := builtinGetActiveBranch s.live s.scheduler
        some { s with status := fun u => if u ∈ active then .running else s.status u }
      else none

/-- The subgroup from its entry on. -/
def subgroupSystem (size : Nat) : Transition.System (Subgroup size) (Op size) where
  initial s := ∃ group memory, s = enter group memory
  step := step

/-- Two nodes are disjoint or nested, and the inner one is not less deep. -/
def Laminar (a b : TreeNode size) : Prop :=
  (Disjoint a.threads b.threads ∨ a.threads ⊆ b.threads ∨ b.threads ⊆ a.threads) ∧
    (a.threads ⊂ b.threads → b.depth ≤ a.depth) ∧ (b.threads ⊂ a.threads → a.depth ≤ b.depth)

/-- The contract of the scheduler. A thread of the mask of a token has not joined on it
yet while it still carries it. -/
structure Reconverges (s : Subgroup size) : Prop where
  laminar : ∀ u ∈ s.live, ∀ v ∈ s.live, Laminar (s.node u) (s.node v)
  joined : s.Idle → ∀ u ∈ builtinGetActiveBranch s.live s.scheduler, ∀ token,
    s.status u = .waiting token → ∀ w ∈ token.node.threads, token ∉ s.tokens w

/-- The group is the whole mask that each of its threads holds. -/
def HoldsMask (s : Subgroup size) (group : Group size) : Prop :=
  ∀ u ∈ group.threads, (s.node u).threads = group.threads

instance (s : Subgroup size) (group : Group size) : Decidable (HoldsMask s group) :=
  inferInstanceAs (Decidable (∀ _ ∈ _, _))

def DepthFits (s : Subgroup size) (group : Group size) : Prop :=
  ∀ u ∈ group.threads, (s.node u).depth + 1 < 2 ^ 32

instance (s : Subgroup size) (group : Group size) : Decidable (DepthFits s group) :=
  inferInstanceAs (Decidable (∀ _ ∈ _, _))

/-- `builtin_yield` and `builtin_create_control_point`, which do not narrow the mask, are
called by the whole mask, and no depth wraps around. -/
def WholeMask (s : Subgroup size) : Op size → Prop
  | .createControlPoint group _ _ => HoldsMask s group ∧ DepthFits s group
  | .fork group branchDestination =>
      (∀ u ∈ group.threads, ∀ v ∈ group.threads, branchDestination u = branchDestination v) ∨
        DepthFits s group
  | .yield group _ _ => HoldsMask s group
  | .join _ _ _ => True
  | .getActiveBranch => True

instance (s : Subgroup size) : (op : Op size) → Decidable (WholeMask s op)
  | .createControlPoint _ _ _ => inferInstanceAs (Decidable (_ ∧ _))
  | .fork _ _ => inferInstanceAs (Decidable (_ ∨ _))
  | .yield s' _ _ => inferInstanceAs (Decidable (HoldsMask s s'))
  | .join _ _ _ => instDecidableTrue
  | .getActiveBranch => instDecidableTrue

end Shady.Internal
