import Mathlib.Data.BitVec
import Mathlib.Data.Nat.Bitwise
import Mathlib.Tactic

/-!
# Numbers in an array of words

A number wider than a word is kept in consecutive words, its low bits first; one that is
narrower takes a word of its own. Several numbers kept at fixed places can all be read
back exactly when no two of the places share a word.
-/

set_option autoImplicit false

namespace WordArray

abbrev Words (bits : Nat) := Nat → BitVec bits

/-! ## One number -/

section Number
variable {bits : Nat}

/-- Writes `count` words from `index` on. -/
def storeFrom : Nat → Nat → Nat → Words bits → Words bits
  | 0, _, _, words => words
  | count + 1, index, value, words =>
      storeFrom count (index + 1) (value >>> bits)
        (Function.update words index (BitVec.ofNat bits value))

def loadFrom : Nat → Nat → Words bits → Nat
  | 0, _, _ => 0
  | count + 1, index, words =>
      2 ^ bits * loadFrom count (index + 1) words + (words index).toNat

theorem storeFrom_outside {count index value i : Nat} {words : Words bits}
    (outside : i < index ∨ index + count ≤ i) : storeFrom count index value words i = words i := by
  induction count generalizing index value words with
  | zero => rfl
  | succ count ih =>
      rw [storeFrom, ih (by omega), Function.update_of_ne (by omega)]

/-- The words between are overwritten with parts of the number. -/
theorem storeFrom_inside {count index value k : Nat} {words : Words bits} (inside : k < count) :
    storeFrom count index value words (index + k) = BitVec.ofNat bits (value >>> (bits * k)) := by
  induction count generalizing index value words k with
  | zero => exact absurd inside (Nat.not_lt_zero k)
  | succ count ih =>
      rw [storeFrom]
      cases k with
      | zero =>
          have before : index + 0 < index + 1 := Nat.lt_succ_self index
          rw [storeFrom_outside (Or.inl before), Nat.add_zero, Function.update_self, Nat.mul_zero,
            Nat.shiftRight_zero]
      | succ k =>
          have step : index + (k + 1) = index + 1 + k := by omega
          rw [step, ih (Nat.lt_of_succ_lt_succ inside), ← Nat.shiftRight_add, Nat.mul_succ,
            Nat.add_comm bits]

theorem loadFrom_congr {count index : Nat} {words words' : Words bits}
    (agree : ∀ i, index ≤ i → i < index + count → words i = words' i) :
    loadFrom count index words = loadFrom count index words' := by
  induction count generalizing index with
  | zero => rfl
  | succ count ih =>
      rw [loadFrom, loadFrom, agree index (Nat.le_refl _) (by omega),
        ih fun i lower upper => agree i (by omega) (by omega)]

theorem loadFrom_storeFrom (count index value : Nat) (words : Words bits) :
    loadFrom count index (storeFrom count index value words) = value % 2 ^ (count * bits) := by
  induction count generalizing index value words with
  | zero => rw [loadFrom, Nat.zero_mul, pow_zero, Nat.mod_one]
  | succ count ih =>
      rw [storeFrom, loadFrom, ih, storeFrom_outside (Or.inl (Nat.lt_succ_self index)),
        Function.update_self, BitVec.toNat_ofNat, Nat.shiftRight_eq_div_pow, Nat.succ_mul,
        Nat.add_comm (count * bits), pow_add, Nat.mod_mul, Nat.add_comm]

/-- The lowest bit of each word is a bit of the number. -/
theorem loadFrom_testBit {count index k : Nat} {words : Words bits} (positive : 0 < bits)
    (inside : k < count) :
    (loadFrom count index words).testBit (bits * k) = (words (index + k)).toNat.testBit 0 := by
  induction count generalizing index k with
  | zero => exact absurd inside (Nat.not_lt_zero k)
  | succ count ih =>
      rw [loadFrom, Nat.testBit_two_pow_mul_add _ (words index).isLt]
      cases k with
      | zero => rw [Nat.mul_zero, if_pos positive, Nat.add_zero]
      | succ k =>
          have beyond : ¬ bits * (k + 1) < bits :=
            Nat.not_lt_of_le (Nat.le_mul_of_pos_right bits (Nat.succ_pos k))
          have step : index + 1 + k = index + (k + 1) := by omega
          rw [if_neg beyond, Nat.mul_succ, Nat.add_sub_cancel, ih (Nat.lt_of_succ_lt_succ inside),
            step]

end Number

/-! ## Places -/

/-- `count` words for a number of `width` bits, each of them holding some of the bits. -/
structure Slot (bits : Nat) where
  first : Nat
  count : Nat
  width : Nat
  lower : (count - 1) * bits < width
  upper : width ≤ count * bits

section Slots
variable {bits : Nat}

namespace Slot

def Holds (slot : Slot bits) (index : Nat) : Prop :=
  slot.first ≤ index ∧ index < slot.first + slot.count

def Disjoint (slot other : Slot bits) : Prop := ∀ index, slot.Holds index → ¬ other.Holds index

def store (slot : Slot bits) (value : Nat) (words : Words bits) : Words bits :=
  storeFrom slot.count slot.first value words

def load (slot : Slot bits) (words : Words bits) : Nat :=
  loadFrom slot.count slot.first words % 2 ^ slot.width

theorem count_pos (slot : Slot bits) : 0 < slot.count := by
  apply Nat.pos_of_ne_zero
  intro zero
  have lower := slot.lower
  have upper := slot.upper
  rw [zero] at lower upper
  omega

theorem holds_first (slot : Slot bits) : slot.Holds slot.first :=
  ⟨Nat.le_refl _, Nat.lt_add_of_pos_right slot.count_pos⟩

theorem Disjoint.symm {slot other : Slot bits} (disjoint : slot.Disjoint other) :
    other.Disjoint slot := fun index held held' => disjoint index held' held

theorem store_outside {slot : Slot bits} {value index : Nat} {words : Words bits}
    (outside : ¬ slot.Holds index) : slot.store value words index = words index := by
  apply storeFrom_outside
  simp only [Holds] at outside
  omega

theorem store_zero {slot : Slot bits} {words : Words bits} {index : Nat}
    (held : slot.Holds index) : slot.store 0 words index = 0 := by
  obtain ⟨k, rfl⟩ := Nat.exists_eq_add_of_le held.1
  have inside : k < slot.count := by
    have := held.2
    omega
  rw [store, storeFrom_inside inside, Nat.zero_shiftRight]
  rfl

theorem load_congr {slot : Slot bits} {words words' : Words bits}
    (agree : ∀ index, slot.Holds index → words index = words' index) :
    slot.load words = slot.load words' := by
  rw [load, load, loadFrom_congr fun i lower upper => agree i ⟨lower, upper⟩]

theorem load_store (slot : Slot bits) {value : Nat} (words : Words bits)
    (below : value < 2 ^ slot.width) : slot.load (slot.store value words) = value := by
  have wide : 2 ^ slot.width ≤ 2 ^ (slot.count * bits) :=
    Nat.pow_le_pow_right (by decide) slot.upper
  rw [load, store, loadFrom_storeFrom, Nat.mod_eq_of_lt (Nat.lt_of_lt_of_le below wide),
    Nat.mod_eq_of_lt below]

theorem load_lt (slot : Slot bits) (words : Words bits) : slot.load words < 2 ^ slot.width :=
  Nat.mod_lt _ (Nat.two_pow_pos _)

/-- Every word holds a bit of the number, so all ones leave no word zero. -/
theorem ne_zero_of_load_ones {slot : Slot bits} {words : Words bits} {index : Nat}
    (positive : 0 < bits) (held : slot.Holds index)
    (ones : slot.load words = 2 ^ slot.width - 1) : words index ≠ 0 := by
  intro zero
  obtain ⟨k, rfl⟩ := Nat.exists_eq_add_of_le held.1
  have inside : k < slot.count := by
    have := held.2
    omega
  have within : bits * k < slot.width := by
    apply Nat.lt_of_le_of_lt _ slot.lower
    rw [Nat.mul_comm]
    exact Nat.mul_le_mul_right bits (by omega)
  have bit : (slot.load words).testBit (bits * k) = true := by
    rw [ones, Nat.testBit_two_pow_sub_one, decide_eq_true within]
  rw [load, Nat.testBit_mod_two_pow, decide_eq_true within, Bool.true_and,
    loadFrom_testBit positive inside, zero] at bit
  simp at bit

end Slot

/-! ## Several places -/

/-- Each number is stored in its place, in order. -/
def storeAll : List (Slot bits) → List Nat → Words bits → Words bits
  | slot :: slots, value :: values, words => storeAll slots values (slot.store value words)
  | _, _, words => words

def loadAll (slots : List (Slot bits)) (words : Words bits) : List Nat :=
  slots.map fun slot => slot.load words

/-- One number for each place, of its width. -/
def InSlots : List (Slot bits) → List Nat → Prop := List.Forall₂ fun slot value => value < 2 ^ slot.width

theorem storeAll_outside {slots : List (Slot bits)} {values : List Nat} {words : Words bits}
    {index : Nat} (outside : ∀ slot ∈ slots, ¬ slot.Holds index) :
    storeAll slots values words index = words index := by
  induction slots generalizing values words with
  | nil => rfl
  | cons slot slots ih =>
      cases values with
      | nil => rfl
      | cons value values =>
          rw [List.forall_mem_cons] at outside
          rw [storeAll, ih outside.2, Slot.store_outside outside.1]

theorem storeAll_append {front back : List (Slot bits)} {values values' : List Nat}
    (same : front.length = values.length) (words : Words bits) :
    storeAll (front ++ back) (values ++ values') words =
      storeAll back values' (storeAll front values words) := by
  induction front generalizing values words with
  | nil =>
      rw [List.eq_nil_of_length_eq_zero same.symm]
      cases back <;> rfl
  | cons slot front ih =>
      cases values with
      | nil => cases same
      | cons value values =>
          exact ih (Nat.succ.inj same) _

theorem loadAll_congr {slots : List (Slot bits)} {words words' : Words bits}
    (agree : ∀ slot ∈ slots, ∀ index, slot.Holds index → words index = words' index) :
    loadAll slots words = loadAll slots words' :=
  List.map_congr_left fun slot member => Slot.load_congr (agree slot member)

theorem loadAll_append (front back : List (Slot bits)) (words : Words bits) :
    loadAll (front ++ back) words = loadAll front words ++ loadAll back words := List.map_append

theorem inSlots_split {front back : List (Slot bits)} {values : List Nat}
    (fitting : InSlots (front ++ back) values) :
    ∃ values₁ values₂, values = values₁ ++ values₂ ∧ InSlots front values₁ ∧
      InSlots back values₂ := by
  refine ⟨values.take front.length, values.drop front.length, (List.take_append_drop ..).symm,
    ?_, ?_⟩
  · exact List.Forall₂.flip (List.forall₂_take_append values front back fitting.flip)
  · exact List.Forall₂.flip (List.forall₂_drop_append values front back fitting.flip)

theorem inSlots_zeros (slots : List (Slot bits)) :
    InSlots slots (List.replicate slots.length 0) := by
  induction slots with
  | nil => exact List.Forall₂.nil
  | cons slot slots ih => exact List.Forall₂.cons (Nat.two_pow_pos _) ih

/-- Zeros clear every word of the places. -/
theorem storeAll_zeros {slots : List (Slot bits)} {words : Words bits} {index : Nat}
    (held : words index = 0 ∨ ∃ slot ∈ slots, slot.Holds index) :
    storeAll slots (List.replicate slots.length 0) words index = 0 := by
  induction slots generalizing words with
  | nil =>
      cases held with
      | inl zero => exact zero
      | inr other => simp at other
  | cons slot slots ih =>
      rw [List.length_cons, List.replicate_succ, storeAll]
      apply ih
      by_cases here : slot.Holds index
      · exact Or.inl (Slot.store_zero here)
      · rw [Slot.store_outside here]
        simpa [here] using held

theorem loadAll_storeAll {slots : List (Slot bits)} {values : List Nat}
    (disjoint : slots.Pairwise Slot.Disjoint) (fitting : InSlots slots values)
    (words : Words bits) : loadAll slots (storeAll slots values words) = values := by
  induction fitting generalizing words with
  | nil => rfl
  | @cons slot value slots values below fitting ih =>
      rw [List.pairwise_cons] at disjoint
      have kept : slot.load (storeAll slots values (slot.store value words)) = value := by
        rw [Slot.load_congr fun index held =>
          storeAll_outside fun other member => disjoint.1 other member index held]
        exact slot.load_store words below
      rw [storeAll, loadAll, List.map_cons, kept]
      congr 1
      exact ih disjoint.2 _

/-- Already one initial array tells whether two places share a word. -/
theorem disjoint_of_loadAll_storeAll {slots : List (Slot bits)} (positive : 0 < bits)
    (words : Words bits)
    (kept : ∀ values, InSlots slots values → loadAll slots (storeAll slots values words) = values) :
    slots.Pairwise Slot.Disjoint := by
  induction slots generalizing words with
  | nil => exact List.Pairwise.nil
  | cons slot slots ih =>
      rw [List.pairwise_cons]
      constructor
      · intro other member index held held'
        have ones := kept ((2 ^ slot.width - 1) :: List.replicate slots.length 0)
          (List.Forall₂.cons (Nat.sub_lt (Nat.two_pow_pos _) Nat.one_pos) (inSlots_zeros slots))
        rw [loadAll, List.map_cons, List.cons.injEq, storeAll] at ones
        exact Slot.ne_zero_of_load_ones positive held ones.1
          (storeAll_zeros (Or.inr ⟨other, member, held'⟩))
      · apply ih (slot.store 0 words)
        intro values fitting
        have whole := kept (0 :: values) (List.Forall₂.cons (Nat.two_pow_pos _) fitting)
        rw [loadAll, List.map_cons, List.cons.injEq] at whole
        exact whole.2

end Slots

end WordArray
