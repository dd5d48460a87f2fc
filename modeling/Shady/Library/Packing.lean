import Mathlib.Data.List.Basic
import Mathlib.Data.Nat.Basic
import Mathlib.Tactic

/-!
# Packing extents at aligned offsets

Extents are placed one after the other, each at the first multiple of its alignment. An
alignment of zero asks for nothing.
-/

set_option autoImplicit false

namespace Packing

structure Extent where
  size : Nat
  align : Nat
  deriving DecidableEq

/-- The first multiple of `b` from `a` on. -/
def roundUp (a b : Nat) : Nat := if b = 0 then a else (a + b - 1) / b * b

@[simp] theorem roundUp_align_zero (a : Nat) : roundUp a 0 = a := rfl

theorem dvd_roundUp (a : Nat) {b : Nat} (positive : b ≠ 0) : b ∣ roundUp a b := by
  rw [roundUp, if_neg positive]
  exact Nat.dvd_mul_left b _

theorem le_roundUp (a b : Nat) : a ≤ roundUp a b := by
  unfold roundUp
  split
  case isTrue => exact Nat.le_refl a
  case isFalse positive =>
    have below := Nat.lt_div_mul_add (a := a + b - 1) (Nat.pos_of_ne_zero positive)
    omega

theorem roundUp_le {a b c : Nat} (bound : a ≤ c) (multiple : b ∣ c) : roundUp a b ≤ c := by
  unfold roundUp
  split
  case isTrue => exact bound
  case isFalse positive =>
    obtain ⟨k, rfl⟩ := multiple
    have positive' := Nat.pos_of_ne_zero positive
    have quotient : (a + b - 1) / b ≤ k := by
      apply Nat.le_of_lt_succ
      rw [Nat.div_lt_iff_lt_mul positive', Nat.succ_mul, Nat.mul_comm k b]
      omega
    calc (a + b - 1) / b * b ≤ k * b := Nat.mul_le_mul_right b quotient
      _ = b * k := Nat.mul_comm k b

theorem roundUp_of_dvd {a b : Nat} (multiple : b ∣ a) : roundUp a b = a :=
  Nat.le_antisymm (roundUp_le (Nat.le_refl a) multiple) (le_roundUp a b)

theorem roundUp_zero (b : Nat) : roundUp 0 b = 0 := roundUp_of_dvd (Nat.dvd_zero b)

theorem roundUp_eq_zero {a b : Nat} : roundUp a b = 0 ↔ a = 0 := by
  constructor
  · intro zero
    exact Nat.le_zero.mp (zero ▸ le_roundUp a b)
  · intro zero
    rw [zero, roundUp_zero]

/-- Where the sum before the division reaches a multiple, so does the result. -/
theorem add_lt_of_roundUp_lt {a b limit : Nat} (multiple : b ∣ limit) (positive : b ≠ 0)
    (below : roundUp a b < limit) : a + b - 1 < limit := by
  by_contra reached
  rw [roundUp, if_neg positive] at below
  obtain ⟨k, rfl⟩ := multiple
  have positive' := Nat.pos_of_ne_zero positive
  have quotient : k ≤ (a + b - 1) / b := by
    rw [Nat.le_div_iff_mul_le positive', Nat.mul_comm]
    omega
  have := Nat.mul_le_mul_right b quotient
  rw [Nat.mul_comm k b] at this
  omega

/-! ## Placements -/

/-- The extents with their offsets, from `start` on. -/
def place : Nat → List Extent → List (Nat × Extent)
  | _, [] => []
  | start, e :: es =>
      (roundUp start e.align, e) :: place (roundUp start e.align + e.size) es

/-- The offset after the last extent. -/
def finish : Nat → List Extent → Nat
  | start, [] => start
  | start, e :: es => finish (roundUp start e.align + e.size) es

def maxAlign : List Extent → Nat
  | [] => 0
  | e :: es => max e.align (maxAlign es)

/-- A list of extents as one. -/
def pack (es : List Extent) : Extent := ⟨roundUp (finish 0 es) (maxAlign es), maxAlign es⟩

theorem start_le_finish (start : Nat) (es : List Extent) : start ≤ finish start es := by
  induction es generalizing start with
  | nil => exact Nat.le_refl start
  | cons e es ih =>
      have := le_roundUp start e.align
      have := ih (roundUp start e.align + e.size)
      rw [finish]
      omega

theorem place_within (start : Nat) (es : List Extent) :
    ∀ p ∈ place start es, start ≤ p.1 ∧ p.1 + p.2.size ≤ finish start es := by
  induction es generalizing start with
  | nil => simp [place]
  | cons e es ih =>
      have up := le_roundUp start e.align
      intro p member
      rw [place, List.mem_cons] at member
      rw [finish]
      cases member with
      | inl first =>
          rw [first]
          exact ⟨up, start_le_finish _ es⟩
      | inr later =>
          obtain ⟨lower, upper⟩ := ih _ p later
          exact ⟨by omega, upper⟩

theorem place_pairwise (start : Nat) (es : List Extent) :
    (place start es).Pairwise fun p q => p.1 + p.2.size ≤ q.1 := by
  induction es generalizing start with
  | nil => exact List.Pairwise.nil
  | cons e es ih =>
      rw [place, List.pairwise_cons]
      exact ⟨fun q later => (place_within _ es q later).1, ih _⟩

theorem place_aligned (start : Nat) (es : List Extent) :
    ∀ p ∈ place start es, p.2.align ≠ 0 → p.2.align ∣ p.1 := by
  induction es generalizing start with
  | nil => simp [place]
  | cons e es ih =>
      intro p member positive
      rw [place, List.mem_cons] at member
      cases member with
      | inl first =>
          rw [first] at positive ⊢
          exact dvd_roundUp start positive
      | inr later => exact ih _ p later positive

/-- Each placement is that of one of the extents behind those before it. -/
theorem mem_place {start : Nat} {es : List Extent} {p : Nat × Extent} :
    p ∈ place start es ↔ ∃ before after, es = before ++ p.2 :: after ∧
      p.1 = roundUp (finish start before) p.2.align := by
  induction es generalizing start with
  | nil => simp [place]
  | cons e es ih =>
      rw [place, List.mem_cons, ih]
      constructor
      · intro either
        cases either with
        | inl first =>
            rw [first]
            exact ⟨[], es, rfl, rfl⟩
        | inr later =>
            obtain ⟨before, after, split, offset⟩ := later
            exact ⟨e :: before, after, by rw [split, List.cons_append], offset⟩
      · intro found
        obtain ⟨before, after, split, offset⟩ := found
        cases before with
        | nil =>
            rw [List.nil_append, List.cons.injEq] at split
            left
            rw [split.1]
            exact Prod.ext offset rfl
        | cons first before =>
            rw [List.cons_append, List.cons.injEq] at split
            right
            rw [split.1]
            exact ⟨before, after, split.2, offset⟩

theorem length_place (start : Nat) (es : List Extent) : (place start es).length = es.length := by
  induction es generalizing start with
  | nil => rfl
  | cons e es ih => rw [place, List.length_cons, List.length_cons, ih]

theorem place_map_snd (start : Nat) (es : List Extent) : (place start es).map Prod.snd = es := by
  induction es generalizing start with
  | nil => rfl
  | cons e es ih => rw [place, List.map_cons, ih]

theorem place_append (start : Nat) (front back : List Extent) :
    place start (front ++ back) = place start front ++ place (finish start front) back := by
  induction front generalizing start with
  | nil => rfl
  | cons e front ih => rw [List.cons_append, place, place, ih, List.cons_append, finish]

theorem finish_append (start : Nat) (front back : List Extent) :
    finish start (front ++ back) = finish (finish start front) back := by
  induction front generalizing start with
  | nil => rfl
  | cons e front ih => rw [List.cons_append, finish, finish, ih]

theorem finish_zero_iff (es : List Extent) : finish 0 es = 0 ↔ ∀ e ∈ es, e.size = 0 := by
  induction es with
  | nil => simp [finish]
  | cons e es ih =>
      rw [finish, roundUp_zero, Nat.zero_add, List.forall_mem_cons]
      constructor
      · intro zero
        have size : e.size = 0 := Nat.le_zero.mp (zero ▸ start_le_finish e.size es)
        rw [size] at zero
        exact ⟨size, ih.mp zero⟩
      · intro sizes
        rw [sizes.1]
        exact ih.mpr sizes.2

theorem maxAlign_zero_iff (es : List Extent) : maxAlign es = 0 ↔ ∀ e ∈ es, e.align = 0 := by
  induction es with
  | nil => simp [maxAlign]
  | cons e es ih => rw [maxAlign, Nat.max_eq_zero_iff, ih, List.forall_mem_cons]

/-- The alignment of a pack is that of one of its extents. -/
theorem maxAlign_mem (es : List Extent) : maxAlign es = 0 ∨ ∃ e ∈ es, maxAlign es = e.align := by
  induction es with
  | nil => exact Or.inl rfl
  | cons first es ih =>
      rw [maxAlign]
      by_cases larger : maxAlign es ≤ first.align
      · exact Or.inr ⟨first, List.mem_cons_self, Nat.max_eq_left larger⟩
      · rw [Nat.max_eq_right (Nat.le_of_lt (Nat.lt_of_not_le larger))]
        cases ih with
        | inl zero => exact Or.inl zero
        | inr other =>
            obtain ⟨e, member, equal⟩ := other
            exact Or.inr ⟨e, List.mem_cons_of_mem _ member, equal⟩

theorem pack_size_zero_iff (es : List Extent) : (pack es).size = 0 ↔ ∀ e ∈ es, e.size = 0 := by
  rw [pack, roundUp_eq_zero, finish_zero_iff]

theorem pack_align_dvd_size {es : List Extent} (sized : ∀ e ∈ es, e.align = 0 → e.size = 0) :
    (pack es).align ∣ (pack es).size := by
  by_cases zero : maxAlign es = 0
  · have aligns := (maxAlign_zero_iff es).mp zero
    have empty := (pack_size_zero_iff es).mpr fun e member => sized e member (aligns e member)
    rw [empty]
    exact Nat.dvd_zero _
  · exact dvd_roundUp _ zero

end Packing
