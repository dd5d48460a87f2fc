import Mathlib.Data.List.Basic
import Mathlib.Order.Defs.LinearOrder
import Mathlib.Tactic

/-!
# Reductions and scans

A binary operation combines the elements of a nonempty list. The last section says when a value
`c`, combined with further values and with one that it contains already, is `c` again.
-/

set_option autoImplicit false

namespace Scan

section Combine
variable {α : Type} (f : α → α → α)

def combine : List α → Option α
  | [] => none
  | x :: xs => some (xs.foldl f x)

theorem combine_append {xs : List α} {c : α} (combined : combine f xs = some c) (ys : List α) :
    combine f (xs ++ ys) = some (ys.foldl f c) := by
  cases xs with
  | nil => exact nomatch combined
  | cons x xs =>
      cases combined
      exact congrArg some List.foldl_append

theorem combine_of_mem {xs : List α} {x : α} (member : x ∈ xs) : ∃ c, combine f xs = some c := by
  cases xs with
  | nil => exact nomatch member
  | cons x xs => exact ⟨_, rfl⟩

end Combine

/-! ## Sorted lists -/

/-- A sorted list is cut at any place into what comes up to there and what comes behind. -/
theorem filter_le_append_filter_lt {ι : Type} [LinearOrder ι] {l : List ι} (sorted : l.Pairwise (· < ·))
    (i : ι) : l = l.filter (· ≤ i) ++ l.filter (i < ·) := by
  induction l with
  | nil => rfl
  | cons x l ih =>
      have rest := ih (List.Pairwise.of_cons sorted)
      by_cases before : x ≤ i
      · simp only [List.filter_cons, decide_eq_true before, decide_eq_false (not_lt_of_ge before),
          if_true, Bool.false_eq_true, if_false, List.cons_append]
        rw [← rest]
      · have behind : i < x := lt_of_not_ge before
        have none_ : l.filter (· ≤ i) = [] := by
          apply List.filter_eq_nil_iff.mpr
          intro y member le
          have less := List.rel_of_pairwise_cons sorted member
          exact before (less.le.trans (of_decide_eq_true le))
        rw [none_, List.nil_append] at rest
        simp only [List.filter_cons, decide_eq_false before, decide_eq_true behind, if_true,
          Bool.false_eq_true, if_false, none_, List.nil_append]
        rw [← rest]

/-! ## Values combined twice -/

section Laws
variable {α : Type} (f : α → α → α) [Std.Associative f] [Std.Commutative f]

theorem foldl_move (c v : α) (ys : List α) : f (ys.foldl f c) v = ys.foldl f (f c v) := by
  induction ys generalizing c with
  | nil => rfl
  | cons y ys ih =>
      have swap : f (f c y) v = f (f c v) y := by
        rw [@Std.Associative.assoc α f _, @Std.Commutative.comm α f _ y v,
          ← @Std.Associative.assoc α f _]
      rw [List.foldl_cons, ih, swap, List.foldl_cons]

theorem foldl_last (c v : α) (ys : List α) : f (ys.foldl f c) v = f c (ys.foldl f v) := by
  rw [foldl_move f, List.foldl_assoc]

/-- Where only a neutral element leaves `c` as it is, the values have to combine to it. -/
theorem foldl_last_eq_iff_of_cancel {c e : α} (cancel : ∀ x, f c x = c ↔ x = e) (v : α) (ys : List α) :
    f (ys.foldl f c) v = c ↔ ys.foldl f v = e := by
  rw [foldl_last f, cancel]

variable [Std.IdempotentOp f]

theorem foldl_absorbs {c y : α} {ys : List α} (member : y ∈ ys) :
    f (ys.foldl f c) y = ys.foldl f c := by
  induction ys generalizing c with
  | nil => exact nomatch member
  | cons x ys ih =>
      cases List.mem_cons.mp member with
      | inl same =>
          have twice : f (f c x) x = f c x := by
            rw [@Std.Associative.assoc α f _, @Std.IdempotentOp.idempotent α f _]
          rw [List.foldl_cons, same, foldl_move f, twice]
      | inr later => exact ih later

/-- What combining has taken in changes nothing any more. -/
theorem combine_absorbs {c y : α} {ys : List α} (combined : combine f ys = some c) (member : y ∈ ys) :
    f c y = c := by
  cases ys with
  | nil => exact nomatch member
  | cons x ys =>
      cases combined
      cases List.mem_cons.mp member with
      | inl same =>
          rw [same, foldl_move f, @Std.IdempotentOp.idempotent α f _]
      | inr later => exact foldl_absorbs f later

/-- Further values leave `c` as it is exactly where none of them does more. -/
theorem foldl_last_eq_iff_of_idempotent {c v : α} (taken : f c v = c) (ys : List α) :
    f (ys.foldl f c) v = c ↔ ∀ y ∈ ys, f c y = c := by
  constructor
  · intro same y member
    rw [foldl_last f] at same
    have absorbed := @foldl_absorbs _ f _ _ _ v y ys member
    calc
      f c y = f (f c (ys.foldl f v)) y := by rw [same]
      _ = f c (f (ys.foldl f v) y) := Std.Associative.assoc _ _ _
      _ = c := by rw [absorbed, same]
  · intro all
    have stays : ys.foldl f c = c := by
      induction ys with
      | nil => rfl
      | cons y ys ih =>
          rw [List.foldl_cons, all y List.mem_cons_self]
          exact ih fun y member => all y (List.mem_cons_of_mem _ member)
    rw [stays, taken]

end Laws

end Scan
