import Shady.Internal.Divergence

/-!
# Reconvergence

The invariant of the scheduler when `builtin_yield` and `builtin_create_control_point`
are called by whole masks. Running threads hold one node and carry the same tokens. A
suspended thread is suspended with its whole mask. A token is held, carried or waited
on, by all threads of its mask or by none, and the tokens of a thread lie above its node
and above each other.
-/

set_option autoImplicit false

namespace Shady.Internal

variable {size : Nat}

/-! ## Nodes -/

/-- `inner` is nested in `outer` and not less deep. -/
def TreeNode.Within (inner outer : TreeNode size) : Prop :=
  inner.threads ⊆ outer.threads ∧ outer.depth ≤ inner.depth

/-- `inner` is nested in `outer` and deeper. -/
def TreeNode.Under (inner outer : TreeNode size) : Prop :=
  inner.threads ⊆ outer.threads ∧ outer.depth < inner.depth

namespace TreeNode

theorem Within.refl (a : TreeNode size) : a.Within a := ⟨Finset.Subset.refl _, Nat.le_refl _⟩

theorem Under.within {a b : TreeNode size} (under : a.Under b) : a.Within b :=
  ⟨under.1, Nat.le_of_lt under.2⟩

theorem Under.irrefl {a : TreeNode size} : ¬ a.Under a := fun under => Nat.lt_irrefl _ under.2

theorem Under.trans {a b c : TreeNode size} (first : a.Under b) (second : b.Under c) : a.Under c :=
  ⟨first.1.trans second.1, second.2.trans first.2⟩

theorem Within.under {a b c : TreeNode size} (first : a.Within b) (second : b.Under c) :
    a.Under c :=
  ⟨first.1.trans second.1, Nat.lt_of_lt_of_le second.2 first.2⟩

end TreeNode

/-- Nodes with a thread each are laminar when one is within the other as soon as they
share a thread. -/
theorem laminar_of_shared {a b : TreeNode size} (ownA : a.threads.Nonempty)
    (ownB : b.threads.Nonempty)
    (shared : ∀ w, w ∈ a.threads → w ∈ b.threads → a.Within b ∨ b.Within a) : Laminar a b := by
  refine ⟨?_, ?_, ?_⟩
  · by_cases disjoint : Disjoint a.threads b.threads
    · exact Or.inl disjoint
    · obtain ⟨w, inA, inB⟩ := Finset.not_disjoint_iff.mp disjoint
      exact Or.inr ((shared w inA inB).imp And.left And.left)
  · intro strict
    obtain ⟨w, inA⟩ := ownA
    cases shared w inA (strict.1 inA) with
    | inl within => exact within.2
    | inr reverse => exact absurd reverse.1 strict.2
  · intro strict
    obtain ⟨w, inB⟩ := ownB
    cases shared w (strict.1 inB) inB with
    | inl reverse => exact absurd reverse.1 strict.2
    | inr within => exact within.2

/-- Lists that go strictly upwards are equal when they have the same members. -/
theorem tokens_ext {xs ys : List (Token size)}
    (upX : xs.Pairwise fun a b => a.node.Under b.node)
    (upY : ys.Pairwise fun a b => a.node.Under b.node)
    (same : ∀ t, t ∈ xs ↔ t ∈ ys) : xs = ys := by
  have nodup : ∀ zs : List (Token size), (zs.Pairwise fun a b => a.node.Under b.node) → zs.Nodup :=
    fun zs up => List.Pairwise.imp
      (fun {a b} under (equal : a = b) => TreeNode.Under.irrefl (equal ▸ under)) up
  have perm : xs.Perm ys := (List.perm_ext_iff_of_nodup (nodup xs upX) (nodup ys upY)).mpr same
  apply perm.eq_of_pairwise _ upX upY
  intro a b _ _ under reverse
  exact absurd (under.trans reverse) TreeNode.Under.irrefl

/-! ## The invariant -/

/-- The thread has got the token, and has not been resumed after its join on it. -/
def Holds (s : Subgroup size) (u : Lane size) (t : Token size) : Prop :=
  t ∈ s.tokens u ∨ s.status u = .waiting t

structure Coherent (s : Subgroup size) : Prop where
  absent : ∀ u, s.status u = .absent → s.tokens u = []
  own : ∀ u, s.status u ≠ .absent → u ∈ (s.node u).threads
  running : ∀ u v, s.status u = .running → s.status v = .running →
    s.node u = s.node v ∧ s.tokens u = s.tokens v
  suspended : ∀ u, s.status u = .suspended → ∀ w ∈ (s.node u).threads,
    s.status w = .suspended ∧ s.node w = s.node u ∧
      s.scheduler.resumeAt w = s.scheduler.resumeAt u ∧ s.tokens w = s.tokens u
  waiting : ∀ u t, s.status u = .waiting t →
    s.node u = t.node ∧ s.scheduler.resumeAt u = t.destination
  held : ∀ u t, Holds s u t → ∀ w ∈ t.node.threads, Holds s w t
  below : ∀ u, ∀ t ∈ s.tokens u, (s.node u).Under t.node
  chain : ∀ u, (s.tokens u).Pairwise fun a b => a.node.Under b.node
  /-- What a thread of the mask of the running ones did since they were made active. -/
  acted : ∀ r w, s.status r = .running → w ∈ (s.node r).threads →
    s.status w = .running ∨
    (s.status w = .suspended ∧ (s.node w).Within (s.node r) ∧ s.tokens w = s.tokens r) ∨
    ∃ t ∈ s.tokens r, s.status w = .waiting t
  branch : s.Idle → ∃ leaf, IsLeaf s.live s.scheduler.schedulerVector leaf ∧
    s.scheduler.activeBranch = s.node leaf ∧
    s.scheduler.nextFn = s.scheduler.resumeAt leaf

variable {s : Subgroup size}

theorem mem_live {u : Lane size} : u ∈ s.live ↔ s.status u ≠ .absent := by
  simp [Subgroup.live]

namespace Coherent

/-- A thread waits below the tokens it carries. -/
theorem waiting_below (coherent : Coherent s) {u : Lane size} {t t' : Token size}
    (waits : s.status u = .waiting t) (carries : t' ∈ s.tokens u) : t.node.Under t'.node := by
  rw [← (coherent.waiting u t waits).1]
  exact coherent.below u t' carries

/-- A thread is in the mask of each token it holds. -/
theorem mem_of_holds (coherent : Coherent s) {u : Lane size} {t : Token size}
    (holds : Holds s u t) : u ∈ t.node.threads := by
  cases holds with
  | inl carries =>
      apply (coherent.below u t carries).1
      apply coherent.own u
      intro absent
      rw [coherent.absent u absent] at carries
      cases carries
  | inr waits =>
      rw [← (coherent.waiting u t waits).1]
      exact coherent.own u (by simp [waits])

/-- Two tokens of a thread are nested, one in the other. -/
theorem held_compare (coherent : Coherent s) {w : Lane size} {t t' : Token size}
    (holds : Holds s w t) (holds' : Holds s w t') :
    t.node.Within t'.node ∨ t'.node.Within t.node := by
  cases holds with
  | inl carries =>
      cases holds' with
      | inl carries' =>
          have symmetric : Std.Symm fun a b : Token size =>
              a.node.Within b.node ∨ b.node.Within a.node := ⟨fun _ _ => Or.symm⟩
          have nested : (s.tokens w).Pairwise fun a b =>
              a.node.Within b.node ∨ b.node.Within a.node :=
            (coherent.chain w).imp fun under => Or.inl under.within
          apply nested.forall_of_forall _ carries carries'
          exact fun _ _ => Or.inl (TreeNode.Within.refl _)
      | inr waits => exact Or.inr (coherent.waiting_below waits carries).within
  | inr waits =>
      cases holds' with
      | inl carries' => exact Or.inl (coherent.waiting_below waits carries').within
      | inr waits' =>
          rw [waits] at waits'
          cases waits'
          exact Or.inl (TreeNode.Within.refl _)

/-- A thread of the mask of a suspended thread holds a token only above its node. -/
theorem suspended_below (coherent : Coherent s) {u w : Lane size} {t : Token size}
    (suspended : s.status u = .suspended) (member : w ∈ (s.node u).threads)
    (holds : Holds s w t) : (s.node u).Under t.node := by
  obtain ⟨status, node, -, -⟩ := coherent.suspended u suspended w member
  cases holds with
  | inl carries => exact node ▸ coherent.below w t carries
  | inr waits => rw [status] at waits; cases waits

/-- A thread of the mask of a running thread holds a token only above that node. -/
theorem running_below (coherent : Coherent s) {r w : Lane size} {t : Token size}
    (running : s.status r = .running) (member : w ∈ (s.node r).threads)
    (holds : Holds s w t) : (s.node r).Under t.node := by
  apply coherent.below r t
  rcases coherent.acted r w running member with runs | ⟨suspended, -, tokens⟩ | ⟨t', carries, waits⟩
  · cases holds with
    | inl carries => exact (coherent.running w r runs running).2 ▸ carries
    | inr waits => rw [runs] at waits; cases waits
  · cases holds with
    | inl carries => exact tokens ▸ carries
    | inr waits => rw [suspended] at waits; cases waits
  · cases holds with
    | inl above =>
        -- a token above the one that was joined on is held by the running thread too
        have inside : r ∈ t.node.threads :=
          (coherent.waiting_below waits above).1
            ((coherent.below r t' carries).1 (coherent.own r (by simp [running])))
        cases coherent.held w t (Or.inl above) r inside with
        | inl carriesToo => exact carriesToo
        | inr waitsToo => rw [running] at waitsToo; cases waitsToo
    | inr waitsToo =>
        rw [waits] at waitsToo
        cases waitsToo
        exact carries

/-- Live threads whose masks meet hold nodes one of which is within the other. -/
theorem shared (coherent : Coherent s) {u v w : Lane size} (liveU : s.status u ≠ .absent)
    (liveV : s.status v ≠ .absent) (inU : w ∈ (s.node u).threads)
    (inV : w ∈ (s.node v).threads) :
    (s.node u).Within (s.node v) ∨ (s.node v).Within (s.node u) := by
  have waits_holds : ∀ {x t}, s.status x = .waiting t → w ∈ (s.node x).threads → Holds s w t := by
    intro x t waits member
    apply coherent.held x t (Or.inr waits)
    rwa [← (coherent.waiting x t waits).1]
  cases statusU : s.status u with
  | absent => exact absurd statusU liveU
  | running =>
      cases statusV : s.status v with
      | absent => exact absurd statusV liveV
      | running =>
          rw [(coherent.running u v statusU statusV).1]
          exact Or.inl (TreeNode.Within.refl _)
      | suspended =>
          obtain ⟨status, node, -, -⟩ := coherent.suspended v statusV w inV
          rcases coherent.acted u w statusU inU with runs | ⟨-, within, -⟩ | ⟨t, -, waits⟩
          · rw [status] at runs; cases runs
          · exact Or.inr (node ▸ within)
          · rw [status] at waits; cases waits
      | waiting t =>
          rw [(coherent.waiting v t statusV).1]
          exact Or.inl (coherent.running_below statusU inU (waits_holds statusV inV)).within
  | suspended =>
      obtain ⟨status, node, -, -⟩ := coherent.suspended u statusU w inU
      cases statusV : s.status v with
      | absent => exact absurd statusV liveV
      | running =>
          rcases coherent.acted v w statusV inV with runs | ⟨-, within, -⟩ | ⟨t, -, waits⟩
          · rw [status] at runs; cases runs
          · exact Or.inl (node ▸ within)
          · rw [status] at waits; cases waits
      | suspended =>
          rw [← node, (coherent.suspended v statusV w inV).2.1]
          exact Or.inl (TreeNode.Within.refl _)
      | waiting t =>
          rw [(coherent.waiting v t statusV).1]
          exact Or.inl (coherent.suspended_below statusU inU (waits_holds statusV inV)).within
  | waiting t =>
      rw [(coherent.waiting u t statusU).1]
      cases statusV : s.status v with
      | absent => exact absurd statusV liveV
      | running =>
          exact Or.inr (coherent.running_below statusV inV (waits_holds statusU inU)).within
      | suspended =>
          exact Or.inr (coherent.suspended_below statusV inV (waits_holds statusU inU)).within
      | waiting t' =>
          rw [(coherent.waiting v t' statusV).1]
          exact coherent.held_compare (waits_holds statusU inU) (waits_holds statusV inV)

theorem laminar (coherent : Coherent s) {u v : Lane size} (liveU : s.status u ≠ .absent)
    (liveV : s.status v ≠ .absent) : Laminar (s.node u) (s.node v) :=
  laminar_of_shared ⟨u, coherent.own u liveU⟩ ⟨v, coherent.own v liveV⟩
    fun _ inU inV => coherent.shared liveU liveV inU inV

/-! ## Who is made active -/

/-- When a waiting thread is a leaf, all threads of the mask of its token wait with it. -/
theorem leaf_waits (coherent : Coherent s) (idle : s.Idle) {leaf : Lane size} {t : Token size}
    (isLeaf : IsLeaf s.live s.scheduler.schedulerVector leaf)
    (waits : s.status leaf = .waiting t) {w : Lane size} (member : w ∈ t.node.threads) :
    s.status w = .waiting t := by
  have node := (coherent.waiting leaf t waits).1
  have liveLeaf : s.status leaf ≠ .absent := by simp [waits]
  have ownLeaf : leaf ∈ t.node.threads := node ▸ coherent.own leaf liveLeaf
  cases coherent.held leaf t (Or.inr waits) w member with
  | inr waitsToo => exact waitsToo
  | inl carries =>
      exfalso
      have under := coherent.below w t carries
      have liveW : s.status w ≠ .absent := by
        intro absent
        rw [coherent.absent w absent] at carries
        cases carries
      -- a leaf has no smaller mask below it, so `w` holds the mask of the token
      have whole : t.node.threads ⊆ (s.node w).threads := by
        by_contra smaller
        apply isLeaf.2 w (mem_live.mpr liveW)
        rw [show (s.scheduler.schedulerVector leaf) = t.node from node]
        exact ⟨under.1, smaller⟩
      have inside : leaf ∈ (s.node w).threads := whole ownLeaf
      cases status : s.status w with
      | absent => exact liveW status
      | running => exact idle w status
      | suspended =>
          have := (coherent.suspended w status leaf inside).1
          rw [waits] at this
          cases this
      | waiting t' =>
          have nodeW := (coherent.waiting w t' status).1
          rw [nodeW] at under inside
          cases coherent.held w t' (Or.inr status) leaf inside with
          | inl carriesToo =>
              exact TreeNode.Under.irrefl (under.trans (coherent.waiting_below waits carriesToo))
          | inr waitsToo =>
              rw [waits] at waitsToo
              cases waitsToo
              exact TreeNode.Under.irrefl under

theorem waiting_tokens (coherent : Coherent s) {u v : Lane size} {t : Token size}
    (waitsU : s.status u = .waiting t) (waitsV : s.status v = .waiting t) :
    s.tokens u = s.tokens v := by
  have carried : ∀ {x y}, s.status x = .waiting t → s.status y = .waiting t →
      ∀ t', t' ∈ s.tokens x → t' ∈ s.tokens y := by
    intro x y waitsX waitsY t' carries
    have under := coherent.waiting_below waitsX carries
    have inside : y ∈ t.node.threads := by
      rw [← (coherent.waiting y t waitsY).1]
      exact coherent.own y (by simp [waitsY])
    cases coherent.held x t' (Or.inl carries) y (under.1 inside) with
    | inl carriesToo => exact carriesToo
    | inr waitsToo =>
        rw [waitsY] at waitsToo
        cases waitsToo
        exact absurd under TreeNode.Under.irrefl
  exact tokens_ext (coherent.chain u) (coherent.chain v)
    fun t' => ⟨carried waitsU waitsV t', carried waitsV waitsU t'⟩

/-- The threads of the mask of a leaf are where the leaf is. -/
theorem leaf_class (coherent : Coherent s) (idle : s.Idle) {leaf : Lane size}
    (isLeaf : IsLeaf s.live s.scheduler.schedulerVector leaf) {u : Lane size}
    (member : u ∈ (s.node leaf).threads) :
    s.status u = s.status leaf ∧ s.node u = s.node leaf ∧
      s.scheduler.resumeAt u = s.scheduler.resumeAt leaf ∧ s.tokens u = s.tokens leaf := by
  cases status : s.status leaf with
  | absent => exact absurd status (mem_live.mp isLeaf.1)
  | running => exact absurd status (idle leaf)
  | suspended => exact coherent.suspended leaf status u member
  | waiting t =>
      obtain ⟨node, resume⟩ := coherent.waiting leaf t status
      rw [node] at member
      have waits := coherent.leaf_waits idle isLeaf status member
      obtain ⟨nodeU, resumeU⟩ := coherent.waiting u t waits
      exact ⟨waits, nodeU.trans node.symm, resumeU.trans resume.symm,
        coherent.waiting_tokens waits status⟩

/-- The threads made active are the mask of the leaf that was selected. -/
theorem active_iff (coherent : Coherent s) (idle : s.Idle) {leaf : Lane size}
    (isLeaf : IsLeaf s.live s.scheduler.schedulerVector leaf)
    (branch : s.scheduler.activeBranch = s.node leaf)
    (next : s.scheduler.nextFn = s.scheduler.resumeAt leaf) (u : Lane size) :
    u ∈ builtinGetActiveBranch s.live s.scheduler ↔ u ∈ (s.node leaf).threads := by
  rw [mem_builtinGetActiveBranch, branch, next]
  constructor
  · intro active
    exact active.2.2.1 (coherent.own u (mem_live.mp active.1))
  · intro member
    obtain ⟨status, node, resume, -⟩ := coherent.leaf_class idle isLeaf member
    refine ⟨mem_live.mpr ?_, resume, ?_, ?_⟩
    · rw [status]
      exact mem_live.mp isLeaf.1
    · exact Eq.subset (congrArg TreeNode.threads node)
    · exact Nat.le_of_eq (congrArg TreeNode.depth node).symm

theorem reconverges (coherent : Coherent s) : Reconverges s where
  laminar u liveU v liveV := coherent.laminar (mem_live.mp liveU) (mem_live.mp liveV)
  joined idle u active t waits w member := by
    obtain ⟨leaf, isLeaf, branch, next⟩ := coherent.branch idle
    rw [coherent.active_iff idle isLeaf branch next] at active
    have status := (coherent.leaf_class idle isLeaf active).1
    have waitsLeaf : s.status leaf = .waiting t := status.symm.trans waits
    have waitsW := coherent.leaf_waits idle isLeaf waitsLeaf member
    exact fun carries => TreeNode.Under.irrefl (coherent.waiting_below waitsW carries)

end Coherent

/-! ## What the operations do -/

/-- The threads outside of the group stay as they are. -/
structure Frame (s s' : Subgroup size) (group : Mask size) : Prop where
  node : ∀ u, u ∉ group → s'.node u = s.node u
  resumeAt : ∀ u, u ∉ group → s'.scheduler.resumeAt u = s.scheduler.resumeAt u
  status : ∀ u, u ∉ group → s'.status u = s.status u
  tokens : ∀ u, u ∉ group → s'.tokens u = s.tokens u

/-- The branch to go on with is that of a leaf. -/
def SelectsLeaf (s : Subgroup size) : Prop :=
  ∃ leaf, IsLeaf s.live s.scheduler.schedulerVector leaf ∧
    s.scheduler.activeBranch = s.node leaf ∧ s.scheduler.nextFn = s.scheduler.resumeAt leaf

/-- What a fork and a yield of a group of running threads have in common. -/
structure Suspends (s s' : Subgroup size) (group : Mask size) : Prop where
  frame : Frame s s' group
  running : ∀ u ∈ group, s.status u = .running
  status : ∀ u ∈ group, s'.status u = .suspended
  tokens : ∀ u ∈ group, s'.tokens u = s.tokens u
  own : ∀ u ∈ group, u ∈ (s'.node u).threads
  within : ∀ u ∈ group, (s'.node u).Within (s.node u)
  together : ∀ u ∈ group, ∀ w ∈ (s'.node u).threads, w ∈ group ∧ s'.node w = s'.node u ∧
    s'.scheduler.resumeAt w = s'.scheduler.resumeAt u

/-- What a join of a group of running threads does. -/
structure Joins (s s' : Subgroup size) (group : Mask size) (token : Lane size → Token size) :
    Prop where
  frame : Frame s s' group
  running : ∀ u ∈ group, s.status u = .running
  innermost : ∀ u ∈ group, s.tokens u = token u :: s'.tokens u
  status : ∀ u ∈ group, s'.status u = .waiting (token u)
  node : ∀ u ∈ group, s'.node u = (token u).node
  resumeAt : ∀ u ∈ group, s'.scheduler.resumeAt u = (token u).destination

/-- What the creation of a control point by the whole mask `base` does. -/
structure Creates (s s' : Subgroup size) (group : Mask size) (base : TreeNode size)
    (token : Token size) : Prop where
  frame : Frame s s' group
  running : ∀ u ∈ group, s.status u = .running
  whole : base.threads = group
  origin : token.node = base
  before : ∀ u ∈ group, s.node u = base
  node : ∀ u ∈ group, s'.node u = ⟨base.threads, base.depth + 1⟩
  status : ∀ u ∈ group, s'.status u = .running
  tokens : ∀ u ∈ group, s'.tokens u = token :: s.tokens u

section Steps
variable {s' : Subgroup size} {group : Group size}

theorem live_congr (same : ∀ u, s'.status u = .absent ↔ s.status u = .absent) :
    s'.live = s.live := by
  ext u
  rw [mem_live, mem_live, not_iff_not]
  exact same u

theorem creates_of_step {joinDestination : Nat} {payload : Lane size → Nat}
    (coherent : Coherent s) (holds : HoldsMask s group) (fits : DepthFits s group)
    (stepped : step s (.createControlPoint group joinDestination payload) = some s') :
    ∃ token, Creates s s' group.threads (s.node group.first) token := by
  simp only [step, builtinCreateControlPoint] at stepped
  split at stepped
  case isFalse => cases stepped
  case isTrue allRunning =>
    cases stepped
    have base : ∀ u ∈ group.threads, s.node u = s.node group.first := fun u member =>
      (coherent.running u group.first (allRunning u member)
        (allRunning group.first group.first_mem)).1
    refine ⟨⟨s.created, ⟨group.threads, (s.node group.first).depth⟩, joinDestination⟩,
        ⟨fun u outside => if_neg outside, fun u outside => rfl, fun u outside => rfl,
          fun u outside => if_neg outside⟩, allRunning, holds _ group.first_mem, ?_, base,
        fun u member => ?_, allRunning, fun u member => if_pos member⟩
    · exact TreeNode.ext (holds _ group.first_mem).symm rfl
    · change (if u ∈ group.threads then _ else _) = _
      have := fits group.first group.first_mem
      rw [if_pos member]
      refine TreeNode.ext ?_ ?_
      · change (s.node u).threads = _
        rw [base u member]
      · change nextDepth (s.node u).depth = _
        rw [base u member, nextDepth, Nat.mod_eq_of_lt this]

theorem joins_of_step {token : Lane size → Token size} {reduced : Lane size}
    (stepped : step s (.join group token reduced) = some s') :
    Joins s s' group.threads token ∧ SelectsLeaf s' := by
  simp only [step] at stepped
  split at stepped
  case isFalse => cases stepped
  case isTrue possible =>
    obtain ⟨members, isLeaf⟩ := possible
    cases stepped
    refine ⟨⟨⟨fun u outside => if_neg outside, fun u outside => if_neg outside,
        fun u outside => if_neg outside, fun u outside => if_neg outside⟩,
        fun u member => (members u member).1, fun u member => ?_, fun u member => if_pos member,
        fun u member => if_pos member, fun u member => if_pos member⟩, reduced, ?_, rfl, rfl⟩
    · change _ = token u :: (if u ∈ group.threads then _ else _)
      rw [if_pos member]
      exact (List.cons_head?_tail (members u member).2).symm
    · rwa [live_congr]
      intro u
      by_cases member : u ∈ group.threads
      · simp [member, (members u member).1]
      · simp [member]

theorem suspends_of_yield {resumeTarget : Nat} {reduced : Lane size} (coherent : Coherent s)
    (holds : HoldsMask s group)
    (stepped : step s (.yield group resumeTarget reduced) = some s') :
    Suspends s s' group.threads ∧ SelectsLeaf s' := by
  simp only [step] at stepped
  split at stepped
  case isFalse => cases stepped
  case isTrue possible =>
    obtain ⟨allRunning, isLeaf⟩ := possible
    cases stepped
    refine ⟨⟨⟨fun u outside => rfl, fun u outside => if_neg outside,
        fun u outside => if_neg outside, fun u outside => rfl⟩, allRunning,
        fun u member => if_pos member, fun u member => rfl, fun u member => ?_,
        fun u member => TreeNode.Within.refl _, fun u member w inside => ?_⟩, reduced, ?_, rfl, rfl⟩
    · exact coherent.own u (by simp [allRunning u member])
    · have memberW : w ∈ group.threads := holds u member ▸ inside
      refine ⟨memberW, (coherent.running w u (allRunning w memberW) (allRunning u member)).1, ?_⟩
      change (if w ∈ group.threads then _ else _) = (if u ∈ group.threads then _ else _)
      rw [if_pos memberW, if_pos member]
    · rwa [live_congr]
      intro u
      by_cases member : u ∈ group.threads
      · simp [member, allRunning u member]
      · simp [member]

theorem suspends_of_fork {branchDestination : Lane size → Nat} (coherent : Coherent s)
    (fits : WholeMask s (.fork group branchDestination))
    (stepped : step s (.fork group branchDestination) = some s') :
    Suspends s s' group.threads ∧ s'.scheduler.activeBranch = s'.node group.first ∧
      s'.scheduler.nextFn = s'.scheduler.resumeAt group.first := by
  simp only [step] at stepped
  split at stepped
  case isFalse => cases stepped
  case isTrue allRunning =>
    cases stepped
    have node : ∀ u ∈ group.threads, ∃ depth, (s.node u).depth ≤ depth ∧
        (builtinFork group branchDestination s.scheduler).schedulerVector u =
          ⟨group.threads.filter fun w => branchDestination w = branchDestination u, depth⟩ := by
      intro u member
      rw [builtinFork_schedulerVector, if_pos member]
      refine ⟨_, ?_, rfl⟩
      split
      case isTrue => exact Nat.le_refl _
      case isFalse disagree =>
        cases fits with
        | inl agree =>
            exact absurd (fun w memberW => agree _ group.first_mem w memberW) disagree
        | inr fits =>
            rw [nextDepth, Nat.mod_eq_of_lt (fits u member)]
            exact Nat.le_succ _
    have depth : ∀ u ∈ group.threads, ∀ w ∈ group.threads,
        ((builtinFork group branchDestination s.scheduler).schedulerVector w).depth =
          ((builtinFork group branchDestination s.scheduler).schedulerVector u).depth := by
      intro u member w memberW
      have same := (coherent.running w u (allRunning w memberW) (allRunning u member)).1
      rw [builtinFork_schedulerVector, builtinFork_schedulerVector, if_pos member, if_pos memberW]
      change (if _ then (s.node w).depth else nextDepth (s.node w).depth) =
        (if _ then (s.node u).depth else nextDepth (s.node u).depth)
      rw [same]
    refine ⟨⟨⟨fun u outside => ?_, fun u outside => ?_, fun u outside => if_neg outside,
        fun u outside => rfl⟩, allRunning, fun u member => if_pos member, fun u member => rfl,
        fun u member => ?_, fun u member => ?_, fun u member w inside => ?_⟩, rfl, ?_⟩
    · exact (builtinFork_schedulerVector _ _ _ _).trans (if_neg outside)
    · exact (builtinFork_resumeAt _ _ _ _).trans (if_neg outside)
    · obtain ⟨_, -, equal⟩ := node u member
      simp [Subgroup.node, equal, member]
    · obtain ⟨_, deeper, equal⟩ := node u member
      refine ⟨?_, ?_⟩
      · simp only [Subgroup.node, equal]
        intro w inside
        have memberW := (Finset.mem_filter.mp inside).1
        change w ∈ (s.node u).threads
        rw [← (coherent.running w u (allRunning w memberW) (allRunning u member)).1]
        exact coherent.own w (by simp [allRunning w memberW])
      · simpa only [Subgroup.node, equal] using deeper
    · obtain ⟨depthU, -, equal⟩ := node u member
      simp only [Subgroup.node, equal, Finset.mem_filter] at inside
      obtain ⟨memberW, agree⟩ := inside
      obtain ⟨depthW, -, equalW⟩ := node w memberW
      refine ⟨memberW, TreeNode.ext ?_ (depth u member w memberW), ?_⟩
      · simp only [Subgroup.node, equal, equalW, agree]
      · rw [builtinFork_resumeAt, builtinFork_resumeAt, if_pos member, if_pos memberW, agree]
    · exact ((builtinFork_resumeAt _ _ _ _).trans (if_pos group.first_mem)).symm

/-! ## What the operations keep -/

/-- A suspended thread whose mask is suspended with it is a leaf. -/
theorem suspended_isLeaf (own : ∀ u, s.status u ≠ .absent → u ∈ (s.node u).threads)
    {leaf : Lane size} (liveLeaf : s.status leaf ≠ .absent)
    (together : ∀ w ∈ (s.node leaf).threads, s.node w = s.node leaf) :
    IsLeaf s.live s.scheduler.schedulerVector leaf := by
  refine ⟨mem_live.mpr liveLeaf, ?_⟩
  intro v liveV strict
  have node := together v (strict.1 (own v (mem_live.mp liveV)))
  exact strict.2 (Eq.subset (congrArg TreeNode.threads node).symm)

/-- A mask of a suspended thread has no running thread. -/
theorem Coherent.suspended_outside (coherent : Coherent s) {group : Mask size}
    (running : ∀ u ∈ group, s.status u = .running) {u w : Lane size}
    (status : s.status u = .suspended) (member : w ∈ (s.node u).threads) : w ∉ group := by
  intro inside
  have := (coherent.suspended u status w member).1
  rw [running w inside] at this
  cases this

theorem Suspends.coherent {group : Mask size} (suspends : Suspends s s' group)
    (coherent : Coherent s) (branch : s'.Idle → SelectsLeaf s') : Coherent s' := by
  obtain ⟨frame, running, status, tokens, own, within, together⟩ := suspends
  have tokensEq : ∀ u, s'.tokens u = s.tokens u := fun u =>
    if member : u ∈ group then tokens u member else frame.tokens u member
  have outside : ∀ u, s'.status u ≠ .suspended → u ∉ group ∧ s'.status u = s.status u :=
    fun u other => by
      have notIn : u ∉ group := fun member => other (status u member)
      exact ⟨notIn, frame.status u notIn⟩
  have holdsIff : ∀ u t, Holds s' u t ↔ Holds s u t := by
    intro u t
    unfold Holds
    rw [tokensEq u]
    by_cases member : u ∈ group
    · simp [status u member, running u member]
    · rw [frame.status u member]
  constructor
  case absent =>
    intro u absent
    obtain ⟨-, same⟩ := outside u (by simp [absent])
    rw [tokensEq]
    exact coherent.absent u (same ▸ absent)
  case own =>
    intro u live
    by_cases member : u ∈ group
    · exact own u member
    · rw [frame.node u member]
      exact coherent.own u (frame.status u member ▸ live)
  case running =>
    intro u v runsU runsV
    obtain ⟨outU, sameU⟩ := outside u (by simp [runsU])
    obtain ⟨outV, sameV⟩ := outside v (by simp [runsV])
    rw [frame.node u outU, frame.node v outV, tokensEq, tokensEq]
    exact coherent.running u v (sameU ▸ runsU) (sameV ▸ runsV)
  case suspended =>
    intro u suspended w inside
    by_cases member : u ∈ group
    · obtain ⟨memberW, node, resume⟩ := together u member w inside
      refine ⟨status w memberW, node, resume, ?_⟩
      rw [tokensEq, tokensEq]
      exact (coherent.running w u (running w memberW) (running u member)).2
    · rw [frame.node u member] at inside
      rw [frame.status u member] at suspended
      have outW := coherent.suspended_outside running suspended inside
      rw [frame.status w outW, frame.node w outW, frame.node u member, frame.resumeAt w outW,
        frame.resumeAt u member, tokensEq, tokensEq]
      exact coherent.suspended u suspended w inside
  case waiting =>
    intro u t waits
    obtain ⟨outU, sameU⟩ := outside u (by simp [waits])
    rw [frame.node u outU, frame.resumeAt u outU]
    exact coherent.waiting u t (sameU ▸ waits)
  case held =>
    intro u t holds w inside
    exact (holdsIff w t).mpr (coherent.held u t ((holdsIff u t).mp holds) w inside)
  case below =>
    intro u t carries
    rw [tokensEq] at carries
    by_cases member : u ∈ group
    · exact (within u member).under (coherent.below u t carries)
    · rw [frame.node u member]
      exact coherent.below u t carries
  case chain => exact fun u => tokensEq u ▸ coherent.chain u
  case acted =>
    intro r w runs inside
    obtain ⟨outR, sameR⟩ := outside r (by simp [runs])
    rw [sameR] at runs
    rw [frame.node r outR] at inside ⊢
    rw [tokensEq, tokensEq]
    by_cases member : w ∈ group
    · obtain ⟨node, same⟩ := coherent.running w r (running w member) runs
      exact Or.inr (Or.inl ⟨status w member, node ▸ within w member, same⟩)
    · rw [frame.status w member, frame.node w member]
      exact coherent.acted r w runs inside
  case branch => exact branch

theorem Joins.coherent {group : Mask size} {token : Lane size → Token size}
    (joins : Joins s s' group token) (coherent : Coherent s) (branch : SelectsLeaf s') :
    Coherent s' := by
  obtain ⟨frame, running, innermost, status, node, resumeAt⟩ := joins
  have outside : ∀ u, (∀ t, s'.status u ≠ .waiting t) → u ∉ group ∧ s'.status u = s.status u :=
    fun u other => by
      have notIn : u ∉ group := fun member => other _ (status u member)
      exact ⟨notIn, frame.status u notIn⟩
  have holdsIff : ∀ u t, Holds s' u t ↔ Holds s u t := by
    intro u t
    unfold Holds
    by_cases member : u ∈ group
    · rw [status u member, running u member, innermost u member]
      simp [eq_comm, or_comm]
    · rw [frame.status u member, frame.tokens u member]
  have fewer : ∀ u t, t ∈ s'.tokens u → t ∈ s.tokens u := by
    intro u t carries
    by_cases member : u ∈ group
    · rw [innermost u member]
      exact List.mem_cons_of_mem _ carries
    · exact frame.tokens u member ▸ carries
  have carried : ∀ u ∈ group, token u ∈ s.tokens u := by
    intro u member
    rw [innermost u member]
    exact List.mem_cons_self
  constructor
  case absent =>
    intro u absent
    obtain ⟨outU, same⟩ := outside u (by simp [absent])
    rw [frame.tokens u outU]
    exact coherent.absent u (same ▸ absent)
  case own =>
    intro u live
    by_cases member : u ∈ group
    · rw [node u member]
      exact (coherent.below u _ (carried u member)).1
        (coherent.own u (by simp [running u member]))
    · rw [frame.node u member]
      exact coherent.own u (frame.status u member ▸ live)
  case running =>
    intro u v runsU runsV
    obtain ⟨outU, sameU⟩ := outside u (by simp [runsU])
    obtain ⟨outV, sameV⟩ := outside v (by simp [runsV])
    rw [frame.node u outU, frame.node v outV, frame.tokens u outU, frame.tokens v outV]
    exact coherent.running u v (sameU ▸ runsU) (sameV ▸ runsV)
  case suspended =>
    intro u suspended w inside
    obtain ⟨outU, sameU⟩ := outside u (by simp [suspended])
    rw [sameU] at suspended
    rw [frame.node u outU] at inside
    have outW := coherent.suspended_outside running suspended inside
    rw [frame.status w outW, frame.node w outW, frame.node u outU, frame.resumeAt w outW,
      frame.resumeAt u outU, frame.tokens w outW, frame.tokens u outU]
    exact coherent.suspended u suspended w inside
  case waiting =>
    intro u t waits
    by_cases member : u ∈ group
    · rw [status u member] at waits
      cases waits
      exact ⟨node u member, resumeAt u member⟩
    · rw [frame.node u member, frame.resumeAt u member]
      exact coherent.waiting u t (frame.status u member ▸ waits)
  case held =>
    intro u t holds w inside
    exact (holdsIff w t).mpr (coherent.held u t ((holdsIff u t).mp holds) w inside)
  case below =>
    intro u t carries
    by_cases member : u ∈ group
    · rw [node u member]
      have chain := coherent.chain u
      rw [innermost u member] at chain
      exact (List.pairwise_cons.mp chain).1 t carries
    · rw [frame.node u member]
      exact coherent.below u t (fewer u t carries)
  case chain =>
    intro u
    by_cases member : u ∈ group
    · have chain := coherent.chain u
      rw [innermost u member] at chain
      exact (List.pairwise_cons.mp chain).2
    · rw [frame.tokens u member]
      exact coherent.chain u
  case acted =>
    intro r w runs inside
    obtain ⟨outR, sameR⟩ := outside r (by simp [runs])
    rw [sameR] at runs
    rw [frame.node r outR] at inside ⊢
    rw [frame.tokens r outR]
    by_cases member : w ∈ group
    · refine Or.inr (Or.inr ⟨token w, ?_, status w member⟩)
      rw [← (coherent.running w r (running w member) runs).2]
      exact carried w member
    · rw [frame.status w member, frame.node w member, frame.tokens w member]
      exact coherent.acted r w runs inside
  case branch => exact fun _ => branch

theorem Creates.coherent {group : Mask size} {base : TreeNode size} {token : Token size}
    (creates : Creates s s' group base token) (nonempty : group.Nonempty)
    (coherent : Coherent s) : Coherent s' := by
  obtain ⟨frame, running, whole, origin, before, node, status, tokens⟩ := creates
  have statusEq : ∀ u, s'.status u = s.status u := by
    intro u
    by_cases member : u ∈ group
    · rw [status u member, running u member]
    · exact frame.status u member
  -- the running threads are exactly the group
  have inGroup : ∀ u, s.status u = .running → u ∈ group := by
    intro u runs
    obtain ⟨v, member⟩ := nonempty
    have own := coherent.own u (by simp [runs])
    rwa [(coherent.running u v runs (running v member)).1, before v member, whole] at own
  have more : ∀ u t, Holds s u t → Holds s' u t := by
    intro u t holds
    unfold Holds at holds ⊢
    rw [statusEq]
    by_cases member : u ∈ group
    · rw [tokens u member]
      exact holds.imp (List.mem_cons_of_mem _) id
    · rwa [frame.tokens u member]
  constructor
  case absent =>
    intro u absent
    rw [statusEq] at absent
    have outU : u ∉ group := fun member => by simp [running u member] at absent
    rw [frame.tokens u outU]
    exact coherent.absent u absent
  case own =>
    intro u live
    by_cases member : u ∈ group
    · rw [node u member, whole]
      exact member
    · rw [frame.node u member]
      exact coherent.own u (statusEq u ▸ live)
  case running =>
    intro u v runsU runsV
    rw [statusEq] at runsU runsV
    have memberU := inGroup u runsU
    have memberV := inGroup v runsV
    rw [node u memberU, node v memberV, tokens u memberU, tokens v memberV,
      (coherent.running u v runsU runsV).2]
    exact ⟨rfl, rfl⟩
  case suspended =>
    intro u suspended w inside
    rw [statusEq] at suspended
    have outU : u ∉ group := fun member => by simp [running u member] at suspended
    rw [frame.node u outU] at inside
    have outW := coherent.suspended_outside running suspended inside
    rw [statusEq, frame.node w outW, frame.node u outU, frame.resumeAt w outW,
      frame.resumeAt u outU, frame.tokens w outW, frame.tokens u outU]
    exact coherent.suspended u suspended w inside
  case waiting =>
    intro u t waits
    rw [statusEq] at waits
    have outU : u ∉ group := fun member => by simp [running u member] at waits
    rw [frame.node u outU, frame.resumeAt u outU]
    exact coherent.waiting u t waits
  case held =>
    intro u t holds w inside
    by_cases fresh : t = token
    · subst fresh
      rw [origin, whole] at inside
      exact Or.inl (tokens w inside ▸ List.mem_cons_self)
    · apply more w t
      apply coherent.held u t _ w inside
      unfold Holds at holds ⊢
      rw [statusEq] at holds
      by_cases member : u ∈ group
      · rw [tokens u member, List.mem_cons] at holds
        exact holds.imp (fun either => either.resolve_left fresh) id
      · rwa [frame.tokens u member] at holds
  case below =>
    intro u t carries
    by_cases member : u ∈ group
    · rw [node u member]
      rw [tokens u member, List.mem_cons] at carries
      have deeper : TreeNode.Under (⟨base.threads, base.depth + 1⟩ : TreeNode size) base :=
        ⟨Finset.Subset.refl _, Nat.lt_succ_self _⟩
      cases carries with
      | inl fresh => rwa [fresh, origin]
      | inr old =>
          apply deeper.trans
          rw [← before u member]
          exact coherent.below u t old
    · rw [frame.node u member]
      exact coherent.below u t (frame.tokens u member ▸ carries)
  case chain =>
    intro u
    by_cases member : u ∈ group
    · rw [tokens u member]
      refine List.pairwise_cons.mpr ⟨?_, coherent.chain u⟩
      intro t old
      rw [origin, ← before u member]
      exact coherent.below u t old
    · rw [frame.tokens u member]
      exact coherent.chain u
  case acted =>
    intro r w runs inside
    rw [statusEq] at runs
    rw [node r (inGroup r runs), whole] at inside
    exact Or.inl (status w inside)
  case branch =>
    intro idle
    obtain ⟨v, member⟩ := nonempty
    exact absurd (status v member) (idle v)

/-- The threads made active are the mask of a leaf, which then share node and tokens. -/
theorem activate_keeps (coherent : Coherent s) (stepped : step s .getActiveBranch = some s') :
    Coherent s' := by
  simp only [step] at stepped
  split at stepped
  case isFalse => cases stepped
  case isTrue idle =>
    obtain ⟨leaf, isLeaf, branch, next⟩ := coherent.branch idle
    have active := coherent.active_iff idle isLeaf branch next
    have alike := fun {u} => coherent.leaf_class (u := u) idle isLeaf
    have liveLeaf := mem_live.mp isLeaf.1
    cases stepped
    simp only [active]
    have inLeaf : leaf ∈ (s.node leaf).threads := coherent.own leaf liveLeaf
    -- outside of the mask of the leaf nothing changes, and nothing ran before
    have runs : ∀ u, (if u ∈ (s.node leaf).threads then Status.running else s.status u) = .running →
        u ∈ (s.node leaf).threads := by
      intro u running
      by_contra outside
      rw [if_neg outside] at running
      exact idle u running
    have other : ∀ u status, status ≠ .running →
        (if u ∈ (s.node leaf).threads then Status.running else s.status u) = status →
        u ∉ (s.node leaf).threads ∧ s.status u = status := by
      intro u status differs equal
      by_cases inside : u ∈ (s.node leaf).threads
      · rw [if_pos inside] at equal
        exact absurd equal.symm differs
      · rw [if_neg inside] at equal
        exact ⟨inside, equal⟩
    constructor
    case absent =>
      intro u absent
      exact coherent.absent u (other u _ (by simp) absent).2
    case own =>
      intro u live
      by_cases inside : u ∈ (s.node leaf).threads
      · apply coherent.own u
        rw [(alike inside).1]
        exact liveLeaf
      · apply coherent.own u
        simpa only [if_neg inside] using live
    case running =>
      intro u v runsU runsV
      obtain ⟨-, nodeU, -, tokensU⟩ := alike (runs u runsU)
      obtain ⟨-, nodeV, -, tokensV⟩ := alike (runs v runsV)
      exact ⟨nodeU.trans nodeV.symm, tokensU.trans tokensV.symm⟩
    case suspended =>
      intro u suspended w inside
      obtain ⟨outside, was⟩ := other u _ (by simp) suspended
      obtain ⟨status, node, resume, tokens⟩ := coherent.suspended u was w inside
      have outW : w ∉ (s.node leaf).threads := by
        intro inLeafW
        have sameNode : s.node u = s.node leaf := node.symm.trans (alike inLeafW).2.1
        apply outside
        rw [← sameNode]
        exact coherent.own u (by simp [was])
      exact ⟨(if_neg outW).trans status, node, resume, tokens⟩
    case waiting =>
      intro u t waits
      exact coherent.waiting u t (other u _ (by simp) waits).2
    case held =>
      intro u t holds w inside
      have heldBefore : Holds s u t := by
        cases holds with
        | inl carries => exact Or.inl carries
        | inr waits => exact Or.inr (other u _ (by simp) waits).2
      cases coherent.held u t heldBefore w inside with
      | inl carries => exact Or.inl carries
      | inr waitsW =>
          by_cases inLeafW : w ∈ (s.node leaf).threads
          · -- then the leaf waits on `t` and so do all of its mask, `u` among them
            exfalso
            have waitsLeaf := (alike inLeafW).1 ▸ waitsW
            have ownU := coherent.mem_of_holds heldBefore
            have waitsU := coherent.leaf_waits idle isLeaf waitsLeaf ownU
            cases holds with
            | inl carries =>
                exact TreeNode.Under.irrefl (coherent.waiting_below waitsU carries)
            | inr waits =>
                apply (other u _ (by simp) waits).1
                rwa [(coherent.waiting leaf t waitsLeaf).1]
          · exact Or.inr ((if_neg inLeafW).trans waitsW)
    case below => exact coherent.below
    case chain => exact coherent.chain
    case acted =>
      intro r w running inside
      left
      have node := (alike (runs r running)).2.1
      change w ∈ (s.node r).threads at inside
      rw [node] at inside
      exact if_pos inside
    case branch =>
      intro idleAfter
      exact absurd (if_pos inLeaf) (idleAfter leaf)

theorem step_keeps {op : Op size} (coherent : Coherent s) (whole : WholeMask s op)
    (stepped : step s op = some s') : Coherent s' := by
  cases op with
  | createControlPoint group joinDestination payload =>
      obtain ⟨token, creates⟩ := creates_of_step coherent whole.1 whole.2 stepped
      exact creates.coherent group.nonempty coherent
  | fork group branchDestination =>
      obtain ⟨suspends, branch, next⟩ := suspends_of_fork coherent whole stepped
      apply suspends.coherent coherent
      intro _
      have first := group.first_mem
      refine ⟨group.first, suspended_isLeaf ?_ ?_ ?_, branch, next⟩
      · intro u live
        by_cases member : u ∈ group.threads
        · exact suspends.own u member
        · rw [suspends.frame.node u member]
          exact coherent.own u (suspends.frame.status u member ▸ live)
      · simp [suspends.status _ first]
      · exact fun w inside => (suspends.together _ first w inside).2.1
  | yield group resumeTarget reduced =>
      obtain ⟨suspends, selects⟩ := suspends_of_yield coherent whole stepped
      exact suspends.coherent coherent fun _ => selects
  | join group token reduced =>
      obtain ⟨joins, selects⟩ := joins_of_step stepped
      exact joins.coherent coherent selects
  | getActiveBranch => exact activate_keeps coherent stepped

end Steps

theorem enter_coherent (group : Group size) (memory : Scheduler size) :
    Coherent (enter group memory) := by
  have carries : ∀ u t, t ∈ (enter group memory).tokens u →
      u ∈ group.threads ∧ t.node = ⟨group.threads, 0⟩ := by
    intro u t carries
    simp only [enter] at carries
    split at carries
    case isTrue member => exact ⟨member, by rw [List.mem_singleton.mp carries]; rfl⟩
    case isFalse => cases carries
  have node : ∀ u ∈ group.threads, (enter group memory).node u = ⟨group.threads, 1⟩ :=
    fun u member => if_pos member
  have member : ∀ u, (enter group memory).status u ≠ .absent → u ∈ group.threads := by
    intro u live
    by_contra outside
    exact live (if_neg outside)
  have status : ∀ u, (enter group memory).status u = .running ∨
      (enter group memory).status u = .absent := by
    intro u
    simp only [enter]
    split <;> simp
  have runs : ∀ u ∈ group.threads, (enter group memory).status u = .running :=
    fun u inside => if_pos inside
  constructor
  case absent =>
    intro u absent
    have outside : u ∉ group.threads := fun inside => by simp [runs u inside] at absent
    exact if_neg outside
  case own =>
    intro u live
    rw [node u (member u live)]
    exact member u live
  case running =>
    intro u v runsU runsV
    have memberU := member u (by simp [runsU])
    have memberV := member v (by simp [runsV])
    rw [node u memberU, node v memberV]
    simp [enter, memberU, memberV]
  case suspended =>
    intro u suspended
    rcases status u with runsU | absent
    · simp [runsU] at suspended
    · simp [absent] at suspended
  case waiting =>
    intro u t waits
    rcases status u with runsU | absent
    · simp [runsU] at waits
    · simp [absent] at waits
  case held =>
    intro u t holds w inside
    rcases holds with carriesU | waits
    · have memberW : w ∈ group.threads := by
        rw [(carries u t carriesU).2] at inside
        exact inside
      left
      simp only [enter, if_pos memberW]
      simpa only [enter, if_pos (carries u t carriesU).1] using carriesU
    · rcases status u with runsU | absent
      · simp [runsU] at waits
      · simp [absent] at waits
  case below =>
    intro u t carriesU
    obtain ⟨memberU, origin⟩ := carries u t carriesU
    rw [node u memberU, origin]
    exact ⟨Finset.Subset.refl _, Nat.one_pos⟩
  case chain =>
    intro u
    simp only [enter]
    split
    · exact List.pairwise_singleton _ _
    · exact List.Pairwise.nil
  case acted =>
    intro r w runsR inside
    left
    apply runs
    rw [node r (member r (by simp [runsR]))] at inside
    exact inside
  case branch =>
    intro idle
    obtain ⟨u, inside⟩ := group.nonempty
    exact absurd (runs u inside) (idle u)

/-- In a run in which each yield and each creation of a control point is called by the
whole mask of its threads, every state reached reconverges. -/
theorem reconverges_of_wholeMask {s : Subgroup size}
    (reached : Transition.Reached (subgroupSystem size) WholeMask s) : Reconverges s := by
  apply Coherent.reconverges
  apply reached.invariant (P := Coherent)
  · rintro _ ⟨group, memory, rfl⟩
    exact enter_coherent group memory
  · intro s op s' coherent whole stepped
    exact step_keeps coherent whole stepped

/-! ## Two runs -/

/-- All variables zero. -/
def zeroed (size : Nat) : Scheduler size :=
  ⟨fun _ => ⟨∅, 0⟩, fun _ => 0, 0, ⟨∅, 0⟩, 0, 0⟩

/-- Two threads enter a control construct and fork in it, and join in turn. -/
def forkAndJoin : List (Op 2) :=
  let both : Group 2 := ⟨{0, 1}, by decide⟩
  let token : Lane 2 → Token 2 := fun _ => ⟨1, ⟨{0, 1}, 1⟩, 7⟩
  [.createControlPoint both 7 fun _ => 0, .fork both fun u => 3 + u, .getActiveBranch,
    .join ⟨{0}, by decide⟩ token 1, .getActiveBranch, .join ⟨{1}, by decide⟩ token 0]

theorem forkAndJoin_reconverges : ∃ s : Subgroup 2,
    builtinGetActiveBranch s.live s.scheduler = {0, 1} ∧
      s.status 0 = .waiting ⟨1, ⟨{0, 1}, 1⟩, 7⟩ ∧ Reconverges s := by
  have ran : (Transition.run (subgroupSystem 2) (fun s op => decide (WholeMask s op)) forkAndJoin
      (enter ⟨{0, 1}, by decide⟩ (zeroed 2))).any (fun s => decide
        (builtinGetActiveBranch s.live s.scheduler = {0, 1} ∧
          s.status 0 = .waiting ⟨1, ⟨{0, 1}, 1⟩, 7⟩)) = true := by decide
  rw [Option.any_eq_true] at ran
  obtain ⟨s, ran, shape⟩ := ran
  obtain ⟨active, waits⟩ := of_decide_eq_true shape
  refine ⟨s, active, waits, reconverges_of_wholeMask ?_⟩
  exact Transition.Reached.of_run (fun _ _ => of_decide_eq_true) _ (.start ⟨_, _, rfl⟩) ran

local instance threeThreads : NeZero 3 := ⟨by decide⟩

/-- Two of three threads create a control point and the third one leaves. The first joins;
the second yields, and keeps the mask of all three. -/
def yieldInsideControl : List (Op 3) :=
  let token : Token 3 := ⟨1, ⟨{0, 1}, 1⟩, 7⟩
  let entry : Token 3 := ⟨0, ⟨{0, 1, 2}, 0⟩, 0⟩
  [.createControlPoint ⟨{0, 1}, by decide⟩ 7 fun _ => 0,
    .join ⟨{2}, by decide⟩ (fun _ => entry) 2,
    .join ⟨{0}, by decide⟩ (fun _ => token) 0,
    .yield ⟨{1}, by decide⟩ 5 0]

/-- The first thread is made active past the join, which the second has yet to reach. -/
theorem yield_escapes_join : ¬ ∀ (size : Nat) (s : Subgroup size),
    Transition.Reached (subgroupSystem size) Transition.anyStep s → Reconverges s := by
  intro always
  have ran : (Transition.run (subgroupSystem 3) (fun _ _ => true) yieldInsideControl
      (enter ⟨{0, 1, 2}, by decide⟩ (zeroed 3))).any (fun s => decide
        (s.Idle ∧ 0 ∈ builtinGetActiveBranch s.live s.scheduler ∧
          s.status 0 = .waiting ⟨1, ⟨{0, 1}, 1⟩, 7⟩ ∧ ⟨1, ⟨{0, 1}, 1⟩, 7⟩ ∈ s.tokens 1)) = true := by
    decide
  rw [Option.any_eq_true] at ran
  obtain ⟨s, ran, shape⟩ := ran
  obtain ⟨idle, active, waits, carries⟩ := of_decide_eq_true shape
  have reached : Transition.Reached (subgroupSystem 3) Transition.anyStep s :=
    Transition.Reached.of_run (fun _ _ _ => trivial) _ (.start ⟨_, _, rfl⟩) ran
  exact (always 3 s reached).joined idle 0 active _ waits 1 (by decide) carries

end Shady.Internal
