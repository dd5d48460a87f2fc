import Shady.Internal.Reconvergence

/-!
# The dispatcher loop

Whom `builtin_get_active_branch` of `scheduler.slim` lets go on, whenever all threads of a subgroup
are back in the dispatcher loop.
-/

set_option autoImplicit false

namespace Shady.Internal

variable {size : Nat}

/-- Some threads go on at one place, with the same tokens and with their own number as mask. The
others stand on masks that are apart, or further out. -/
structure Dispatches (s : Subgroup size) (active : Mask size) : Prop where
  nonempty : active.Nonempty
  destination : ∀ u ∈ active, s.scheduler.resumeAt u = s.scheduler.nextFn
  wholeMask : ∀ u ∈ active, (s.node u).threads = active
  alike : ∀ u ∈ active, ∀ v ∈ active,
    s.status u = s.status v ∧ s.node u = s.node v ∧ s.tokens u = s.tokens v
  others : ∀ u ∈ s.live, u ∉ active →
    Disjoint (s.node u).threads active ∨ active ⊂ (s.node u).threads

theorem Coherent.dispatches {s : Subgroup size} (coherent : Coherent s) (idle : s.Idle) :
    Dispatches s (builtinGetActiveBranch s.live s.scheduler) := by
  obtain ⟨leaf, isLeaf, branch, next⟩ := coherent.branch idle
  have active : builtinGetActiveBranch s.live s.scheduler = (s.node leaf).threads := by
    ext u
    exact coherent.active_iff idle isLeaf branch next u
  have same := fun {u : Lane size} (member : u ∈ (s.node leaf).threads) =>
    coherent.leaf_class idle isLeaf member
  have liveLeaf := mem_live.mp isLeaf.1
  rw [active]
  exact {
    nonempty := ⟨leaf, coherent.own leaf liveLeaf⟩
    destination := fun u member => (same member).2.2.1.trans next.symm
    wholeMask := fun u member => congrArg TreeNode.threads (same member).2.1
    alike := fun u first v second =>
      ⟨(same first).1.trans (same second).1.symm, (same first).2.1.trans (same second).2.1.symm,
        (same first).2.2.2.trans (same second).2.2.2.symm⟩
    others := by
      intro u live outside
      have own := coherent.own u (mem_live.mp live)
      have apart : ¬ (s.node u).threads ⊆ (s.node leaf).threads := fun within => outside (within own)
      cases (coherent.laminar (mem_live.mp live) liveLeaf).1 with
      | inl disjoint => exact .inl disjoint
      | inr nested =>
          cases nested with
          | inl inner => exact absurd inner apart
          | inr outer => exact .inr ⟨outer, apart⟩ }

end Shady.Internal
