import Mathlib.Data.List.Nodup
import Mathlib.Data.List.Range
import Shady.Library.Imperative

/-!
# Loops that count

A loop over a machine word that counts from zero and ends when it has reached a limit, and the
list of all that is done by such loops inside each other.
-/

set_option autoImplicit false

namespace CountedLoop

open Imperative

section Counting
variable {w : Nat} {σ ρ τ : Type}

theorem ofNat_succ (i : Nat) : BitVec.ofNat w i + 1#w = BitVec.ofNat w (i + 1) := by
  apply BitVec.eq_of_toNat_eq
  simp

/-- Each turn adds to a trace and counts; the loop ends at the limit, with what all turns add. -/
theorem loopWhile_counts {turn : BitVec w × σ → Option ((BitVec w × σ) ⊕ ρ)} {limit : BitVec w}
    (trace : σ → List τ) (adds : BitVec w → List τ) (left : σ → ρ)
    (step : ∀ i, i < limit → ∀ s, ∃ s', turn (i, s) = some (.inl (i + 1#w, s')) ∧
      trace s' = trace s ++ adds i)
    (last : ∀ s, turn (limit, s) = some (.inr (left s))) {bound : Nat} (enough : limit.toNat < bound)
    (s : σ) :
    ∃ s', loopWhile turn bound (0#w, s) = some (left s') ∧
      trace s' = trace s ++ (List.range limit.toNat).flatMap fun i => adds (BitVec.ofNat w i) := by
  have rest : ∀ turns start : Nat, start + turns = limit.toNat → ∀ bound, turns < bound → ∀ s,
      ∃ s', loopWhile turn bound (BitVec.ofNat w start, s) = some (left s') ∧
        trace s' = trace s ++ (List.range' start turns).flatMap fun i => adds (BitVec.ofNat w i) := by
    intro turns
    induction turns with
    | zero =>
        intro start reached bound positive s
        obtain ⟨bound, rfl⟩ := Nat.exists_eq_succ_of_ne_zero (Nat.pos_iff_ne_zero.mp positive)
        have atLimit : BitVec.ofNat w start = limit := by
          rw [show start = limit.toNat from reached, BitVec.ofNat_toNat, BitVec.setWidth_eq]
        refine ⟨s, ?_, by simp⟩
        rw [loopWhile, atLimit, last s]
    | succ turns ih =>
        intro start reached bound positive s
        obtain ⟨bound, rfl⟩ := Nat.exists_eq_succ_of_ne_zero (Nat.ne_zero_of_lt positive)
        have before : BitVec.ofNat w start < limit := by
          rw [BitVec.lt_def, BitVec.toNat_ofNat, Nat.mod_eq_of_lt (by have := limit.isLt; omega)]
          omega
        obtain ⟨next, turned, added⟩ := step _ before s
        obtain ⟨final, ran, all⟩ := ih (start + 1) (by omega) bound (by omega) next
        refine ⟨final, ?_, ?_⟩
        · rw [loopWhile, turned, ofNat_succ]
          exact ran
        · rw [all, added, List.range'_succ, List.flatMap_cons, List.append_assoc]
  obtain ⟨s', ran, all⟩ := rest limit.toNat 0 (Nat.zero_add _) bound enough s
  exact ⟨s', ran, by rw [all, List.range_eq_range']⟩

end Counting

section Nesting
variable {α β : Type}

/-- What the turns of a loop list has no repetition when a key of it tells the turn. -/
theorem nodup_flatMap_of_key {items : List α} {each : α → List β} (key : β → α)
    (distinct : items.Nodup) (eachDistinct : ∀ i ∈ items, (each i).Nodup)
    (keyed : ∀ i ∈ items, ∀ x ∈ each i, key x = i) : (items.flatMap each).Nodup := by
  rw [List.nodup_flatMap]
  constructor
  · exact eachDistinct
  · apply distinct.pairwise_of_forall_ne
    intro i first j second different x inFirst inSecond
    exact different ((keyed i first x inFirst).symm.trans (keyed j second x inSecond))

end Nesting

/-- A traversal that succeeds everywhere. -/
theorem mapM_eq_some {α β : Type} {f : α → Option β} {g : α → β} {items : List α}
    (each : ∀ x ∈ items, f x = some (g x)) : items.mapM f = some (items.map g) := by
  induction items with
  | nil => rfl
  | cons head tail ih =>
      rw [List.mapM_cons, each head List.mem_cons_self,
        ih fun x member => each x (List.mem_cons_of_mem head member)]
      rfl

end CountedLoop
