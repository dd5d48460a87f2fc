import Mathlib.Data.Fintype.EquivFin
import Mathlib.Data.Set.Finite.List
import Mathlib.Logic.Relation
import Shady.Library.Fallible

/-!
# Depth-first searches

How deep a search can go is bounded by what there is to see. Among finitely many nodes, a walk ends
where no node leads back to itself.
-/

set_option autoImplicit false

namespace Search
open Fallible

variable {N : Type} [DecidableEq N]

/-- A bound on the depth: what there is to see and has not been seen. -/
def left (all seen : List N) : Nat := all.countP fun m => decide (m ∉ seen)

theorem left_le {all seen seen' : List N} (grows : seen ⊆ seen') : left all seen' ≤ left all seen := by
  refine List.countP_mono_left fun m _ unseen => ?_
  rw [decide_eq_true_iff] at unseen ⊢
  exact fun member => unseen (grows member)

theorem left_lt {all seen : List N} {n : N} (inside : n ∈ all) (fresh : n ∉ seen) :
    left all (n :: seen) < left all seen := by
  refine countP_lt (fun m _ unseen => ?_) inside (by simp) (by simpa using fresh)
  rw [decide_eq_true_iff] at unseen ⊢
  exact fun member => unseen (List.mem_cons_of_mem _ member)

section Descent
variable {r : N → N → Prop} {n : N}

omit [DecidableEq N] in
/-- What is not led on forever is never led back. -/
theorem acyclic_of_acc (ends : Acc (fun m n => r n m) n) :
    ¬ ∃ m, Relation.ReflTransGen r n m ∧ Relation.TransGen r m m := by
  induction ends with
  | intro n _ ih =>
      rintro ⟨m, leads, back⟩
      cases Relation.ReflTransGen.cases_head leads with
      | inl same =>
          subst same
          obtain ⟨k, first, rest⟩ := Relation.TransGen.head'_iff.mp back
          exact ih k first ⟨n, rest, back⟩
      | inr further =>
          obtain ⟨k, first, rest⟩ := further
          exact ih k first ⟨m, rest, back⟩

omit [DecidableEq N] in
/-- Among finitely many nodes, what is never led back is not led on forever. -/
theorem acc_of_acyclic {all : List N} (finite : ∀ m, Relation.ReflTransGen r n m → m ∈ all)
    (acyclic : ¬ ∃ m, Relation.ReflTransGen r n m ∧ Relation.TransGen r m m) :
    Acc (fun m n => r n m) n := by
  let Led := {m // Relation.ReflTransGen r n m}
  have isFinite : Finite Led :=
    Set.Finite.subset (List.finite_toSet all) fun m leads => finite m leads
  let After : Led → Led → Prop := fun m k => Relation.TransGen r k.1 m.1
  have transitive : IsTrans Led After := ⟨fun _ _ _ first second => second.trans first⟩
  have irreflexive : Std.Irrefl After := ⟨fun m back => acyclic ⟨m.1, m.2, back⟩⟩
  have descends : WellFounded After := Finite.wellFounded_of_trans_of_irrefl After
  have each : ∀ m : Led, Acc (fun m n => r n m) m.1 := by
    intro m
    induction m using descends.induction with
    | _ m ih =>
        constructor
        intro k step
        exact ih ⟨k, m.2.tail step⟩ (.single step)
  exact each ⟨n, .refl⟩

omit [DecidableEq N] in
/-- Where nothing that is reached lies on a cycle, a walk meets no node twice. -/
theorem nodup_of_acyclic (acyclic : ∀ m, Relation.ReflTransGen r n m → ¬ Relation.TransGen r m m)
    {walk : List N} (steps : List.IsChain r (n :: walk)) : (n :: walk).Nodup := by
  have later := List.isChain_iff_pairwise.mp
    (steps.imp fun _ _ step => (Relation.TransGen.single step : Relation.TransGen r _ _))
  have reached : ∀ m ∈ n :: walk, Relation.ReflTransGen r n m := by
    intro m met
    cases List.mem_cons.mp met with
    | inl same => exact same ▸ .refl
    | inr behind => exact ((List.pairwise_cons.mp later).1 m behind).to_reflTransGen
  refine later.imp_of_mem fun {a b} met _ leads same => ?_
  subst same
  exact acyclic a (reached a met) leads

omit [DecidableEq N] in
/-- Where a cycle is reached, there are walks of every length. -/
theorem walk_of_cycle {m : N} (back : Relation.TransGen r m m) (length : Nat) :
    ∀ {n : N}, Relation.ReflTransGen r n m →
      ∃ walk, List.IsChain r (n :: walk) ∧ walk.length = length := by
  induction length with
  | zero => exact fun _ => ⟨[], List.isChain_singleton _, rfl⟩
  | succ length ih =>
      intro n leads
      obtain ⟨k, step, rest⟩ := Relation.TransGen.head'_iff.mp
        (Relation.TransGen.trans_right leads back)
      obtain ⟨walk, steps, counted⟩ := ih rest
      exact ⟨k :: walk, steps.cons_cons step, by rw [List.length_cons, counted]⟩

end Descent

end Search
