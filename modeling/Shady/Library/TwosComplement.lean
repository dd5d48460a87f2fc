import Mathlib.Data.Int.ModEq
import Mathlib.Tactic

/-!
# Two's complement residues

A machine word of `bits` bits stores the residue of an integer modulo
`2 ^ bits`; `reading` is the representative that the word's signedness selects.
The last section says when an unsigned division of two residues is the residue
of the truncating division of the signed integers they stand for.
-/

set_option autoImplicit false

namespace TwosComplement

/-- The stored pattern of `value`, an integer in `[0, 2 ^ bits)`. -/
def residue (bits : Nat) (value : Int) : Int := value % 2 ^ bits

/-- The integer that the residue of `value` denotes. -/
def reading (bits : Nat) (isSigned : Bool) (value : Int) : Int :=
  if isSigned then value.bmod (2 ^ bits) else value % 2 ^ bits

theorem modulus_pos (bits : Nat) : (0 : Int) < 2 ^ bits := by positivity

theorem residue_nonneg (bits : Nat) (value : Int) : 0 ≤ residue bits value :=
  Int.emod_nonneg _ (modulus_pos bits).ne'

theorem residue_lt (bits : Nat) (value : Int) : residue bits value < 2 ^ bits :=
  Int.emod_lt_of_pos _ (modulus_pos bits)

theorem residue_of_lt (bits : Nat) (value : Int) (nonneg : 0 ≤ value)
    (small : value < 2 ^ bits) : residue bits value = value :=
  Int.emod_eq_of_lt nonneg small

@[simp] theorem residue_reading (bits : Nat) (isSigned : Bool) (value : Int) :
    residue bits (reading bits isSigned value) = residue bits value := by
  cases isSigned with
  | false => simp [residue, reading]
  | true =>
      simp only [residue, reading, if_true]
      have := Int.emod_bmod (x := value) (n := 2 ^ bits)
      have cast : ((2 ^ bits : Nat) : Int) = 2 ^ bits := by push_cast; rfl
      rw [← cast]
      exact Int.bmod_emod

@[simp] theorem reading_residue (bits : Nat) (isSigned : Bool) (value : Int) :
    reading bits isSigned (residue bits value) = reading bits isSigned value := by
  have cast : ((2 ^ bits : Nat) : Int) = 2 ^ bits := by push_cast; rfl
  cases isSigned with
  | false => simp [residue, reading]
  | true =>
      simp only [residue, reading, if_true]
      rw [← cast]
      exact Int.emod_bmod value (2 ^ bits)

theorem reading_congr (bits : Nat) (isSigned : Bool) {left right : Int}
    (same : residue bits left = residue bits right) :
    reading bits isSigned left = reading bits isSigned right := by
  rw [← reading_residue, same, reading_residue]

@[simp] theorem reading_reading (bits : Nat) (isSigned : Bool) (value : Int) :
    reading bits isSigned (reading bits isSigned value) =
      reading bits isSigned value :=
  reading_congr bits isSigned (residue_reading bits isSigned value)

theorem reading_modEq (bits : Nat) (isSigned : Bool) (value : Int) :
    reading bits isSigned value ≡ value [ZMOD 2 ^ bits] :=
  residue_reading bits isSigned value

theorem unsigned_reading_eq_residue (bits : Nat) (value : Int) :
    reading bits false value = residue bits value := rfl

theorem signed_reading_bounds (half : Nat) (value : Int) :
    -2 ^ half ≤ reading (half + 1) true value ∧
      reading (half + 1) true value < 2 ^ half := by
  have positive : 0 < 2 ^ (half + 1) := by positivity
  have lower := Int.le_bmod (x := value) (m := 2 ^ (half + 1)) positive
  have upper := Int.bmod_lt (x := value) (m := 2 ^ (half + 1)) positive
  simp only [reading, if_true]
  push_cast [pow_succ] at lower upper ⊢
  omega

/-- A signed integer in range is stored as itself or shifted up by the modulus. -/
theorem residue_of_signed (half : Nat) (value : Int)
    (lower : -2 ^ half ≤ value) (upper : value ≤ 2 ^ half) :
    residue (half + 1) value =
      if value < 0 then value + 2 ^ (half + 1) else value := by
  have positive : (0 : Int) < 2 ^ half := by positivity
  have double : (2 : Int) ^ (half + 1) = 2 ^ half + 2 ^ half := by ring
  unfold residue
  split_ifs with negative
  · rw [← Int.add_emod_right, Int.emod_eq_of_lt] <;> omega
  · exact Int.emod_eq_of_lt (by omega) (by omega)

/-! ## Unsigned division of two signed residues -/

section Division
variable (half : Nat) (dividend divisor : Int)

/-- The operands on which the unsigned quotient of the residues is the residue
of the truncated quotient. -/
def QuotientAgrees : Prop :=
  (0 ≤ dividend ∧ 0 < divisor) ∨
    (0 ≤ dividend ∧ divisor < 0 ∧ dividend < -divisor) ∨
    (dividend < 0 ∧ divisor = 1) ∨
    (dividend < 0 ∧ dividend = divisor)

/-- The operands on which the unsigned remainder of the residues is the residue
of the truncated remainder. -/
def RemainderAgrees : Prop :=
  (0 ≤ dividend ∧ 0 < divisor) ∨
    (0 ≤ dividend ∧ divisor < 0 ∧ dividend < -divisor) ∨
    (dividend < 0 ∧ 0 < divisor ∧ divisor ∣ dividend ∧ divisor ∣ 2 ^ (half + 1)) ∨
    (dividend < 0 ∧ dividend = divisor)

instance : Decidable (QuotientAgrees dividend divisor) := by
  unfold QuotientAgrees; infer_instance

instance : Decidable (RemainderAgrees half dividend divisor) := by
  unfold RemainderAgrees; infer_instance

/-- The truncated quotient, written with natural (floor) divisions only. -/
theorem tdiv_of_signs :
    (0 ≤ dividend → dividend.tdiv divisor =
        if divisor < 0 then -(dividend / -divisor) else dividend / divisor) ∧
      (dividend < 0 → dividend.tdiv divisor =
        if divisor < 0 then -dividend / -divisor else -(-dividend / divisor)) := by
  constructor
  · intro nonneg
    split_ifs with negative
    · rw [Int.ediv_neg, neg_neg, Int.tdiv_eq_ediv_of_nonneg nonneg]
    · exact Int.tdiv_eq_ediv_of_nonneg nonneg
  · intro below
    have flipped : dividend.tdiv divisor = -((-dividend) / divisor) := by
      rw [← Int.tdiv_eq_ediv_of_nonneg (by omega), Int.neg_tdiv, neg_neg]
    split_ifs with negative
    · rw [flipped, Int.ediv_neg]
    · exact flipped

theorem quotient_nonneg_pos (nonneg : 0 ≤ dividend) (small : dividend < 2 ^ half)
    (positive : 0 < divisor) (bounded : divisor < 2 ^ half) :
    residue (half + 1) dividend / residue (half + 1) divisor =
      residue (half + 1) (dividend.tdiv divisor) := by
  have quotientNonneg : 0 ≤ dividend / divisor := Int.ediv_nonneg nonneg positive.le
  have quotientLe : dividend / divisor ≤ dividend := Int.ediv_le_self _ nonneg
  rw [(tdiv_of_signs dividend divisor).1 nonneg, if_neg (by omega),
    residue_of_signed half dividend (by omega) (by omega),
    residue_of_signed half divisor (by omega) (by omega),
    residue_of_signed half (dividend / divisor) (by omega) (by omega),
    if_neg (by omega), if_neg (by omega), if_neg (by omega)]

theorem quotient_nonneg_neg (nonneg : 0 ≤ dividend) (small : dividend < 2 ^ half)
    (negative : divisor < 0) (bounded : -2 ^ half ≤ divisor) :
    residue (half + 1) dividend / residue (half + 1) divisor =
        residue (half + 1) (dividend.tdiv divisor) ↔ dividend < -divisor := by
  have double : (2 : Int) ^ (half + 1) = 2 ^ half + 2 ^ half := by ring
  have quotientNonneg : 0 ≤ dividend / -divisor := Int.ediv_nonneg nonneg (by omega)
  have quotientLe : dividend / -divisor ≤ dividend := Int.ediv_le_self _ nonneg
  have rawZero : dividend / (divisor + 2 ^ (half + 1)) = 0 :=
    Int.ediv_eq_zero_of_lt nonneg (by omega)
  rw [(tdiv_of_signs dividend divisor).1 nonneg, if_pos negative,
    residue_of_signed half dividend (by omega) (by omega),
    residue_of_signed half divisor (by omega) (by omega),
    residue_of_signed half (-(dividend / -divisor)) (by omega) (by omega),
    if_neg (by omega), if_pos negative, rawZero]
  constructor
  · intro agree
    have quotientZero : dividend / -divisor = 0 := by
      split_ifs at agree <;> omega
    by_contra large
    have atLeastOne : 1 ≤ dividend / -divisor :=
      (Int.le_ediv_iff_mul_le (by omega)).mpr (by omega)
    omega
  · intro less
    simp [Int.ediv_eq_zero_of_lt nonneg less]

theorem quotient_neg_pos (below : dividend < 0) (bounded : -2 ^ half ≤ dividend)
    (positive : 0 < divisor) (small : divisor < 2 ^ half) :
    residue (half + 1) dividend / residue (half + 1) divisor =
        residue (half + 1) (dividend.tdiv divisor) ↔ divisor = 1 := by
  have double : (2 : Int) ^ (half + 1) = 2 ^ half + 2 ^ half := by ring
  have quotientNonneg : 0 ≤ -dividend / divisor := Int.ediv_nonneg (by omega) positive.le
  have quotientLe : -dividend / divisor ≤ -dividend := Int.ediv_le_self _ (by omega)
  rw [(tdiv_of_signs dividend divisor).2 below, if_neg (by omega),
    residue_of_signed half dividend (by omega) (by omega),
    residue_of_signed half divisor (by omega) (by omega),
    residue_of_signed half (-(-dividend / divisor)) (by omega) (by omega),
    if_pos below, if_neg (by omega)]
  constructor
  · intro agree
    by_contra notOne
    -- from two on, the raw quotient lies in the positive half
    have rawPos : 1 ≤ (dividend + 2 ^ (half + 1)) / divisor :=
      (Int.le_ediv_iff_mul_le positive).mpr (by omega)
    have rawSmall : (dividend + 2 ^ (half + 1)) / divisor < 2 ^ half := by
      apply Int.ediv_lt_of_lt_mul positive
      have twice : (2 : Int) ^ half * 2 ≤ 2 ^ half * divisor :=
        mul_le_mul_of_nonneg_left (by omega) (by positivity)
      omega
    split_ifs at agree <;> omega
  · rintro rfl
    simp [below]

theorem quotient_neg_neg (below : dividend < 0) (bounded : -2 ^ half ≤ dividend)
    (negative : divisor < 0) (divisorBounded : -2 ^ half ≤ divisor) :
    residue (half + 1) dividend / residue (half + 1) divisor =
        residue (half + 1) (dividend.tdiv divisor) ↔ dividend = divisor := by
  have double : (2 : Int) ^ (half + 1) = 2 ^ half + 2 ^ half := by ring
  have quotientNonneg : 0 ≤ -dividend / -divisor := Int.ediv_nonneg (by omega) (by omega)
  have quotientLe : -dividend / -divisor ≤ -dividend := Int.ediv_le_self _ (by omega)
  have rawIsOne : divisor ≤ dividend →
      (dividend + 2 ^ (half + 1)) / (divisor + 2 ^ (half + 1)) = 1 := by
    intro larger
    have lower := (Int.le_ediv_iff_mul_le (c := divisor + 2 ^ (half + 1)) (a := 1)
      (b := dividend + 2 ^ (half + 1)) (by omega)).mpr (by omega)
    have upper := Int.ediv_lt_of_lt_mul (a := dividend + 2 ^ (half + 1)) (b := 2)
      (c := divisor + 2 ^ (half + 1)) (by omega) (by omega)
    omega
  rw [(tdiv_of_signs dividend divisor).2 below, if_pos negative,
    residue_of_signed half dividend (by omega) (by omega),
    residue_of_signed half divisor (by omega) (by omega),
    residue_of_signed half (-dividend / -divisor) (by omega) (by omega),
    if_pos below, if_pos negative, if_neg (by omega)]
  rcases lt_trichotomy dividend divisor with less | same | greater
  · have rawZero := Int.ediv_eq_zero_of_lt (a := dividend + 2 ^ (half + 1))
      (b := divisor + 2 ^ (half + 1)) (by omega) (by omega)
    have atLeastOne : 1 ≤ -dividend / -divisor :=
      (Int.le_ediv_iff_mul_le (by omega)).mpr (by omega)
    constructor <;> intro <;> omega
  · subst same
    have selfQuotient : -dividend / -dividend = 1 := Int.ediv_self (by omega)
    rw [rawIsOne (le_refl _), selfQuotient]
    simp
  · have quotientZero := Int.ediv_eq_zero_of_lt (a := -dividend) (b := -divisor)
      (by omega) (by omega)
    rw [rawIsOne greater.le, quotientZero]
    constructor <;> intro <;> omega

theorem quotient_agrees_iff (lower : -2 ^ half ≤ dividend) (upper : dividend < 2 ^ half)
    (divisorLower : -2 ^ half ≤ divisor) (divisorUpper : divisor < 2 ^ half)
    (nonzero : divisor ≠ 0) :
    residue (half + 1) dividend / residue (half + 1) divisor =
        residue (half + 1) (dividend.tdiv divisor) ↔
      QuotientAgrees dividend divisor := by
  unfold QuotientAgrees
  rcases lt_or_ge dividend 0 with below | nonneg
  · rcases lt_or_gt_of_ne nonzero with negative | positive
    · rw [quotient_neg_neg half dividend divisor below lower negative divisorLower]
      omega
    · rw [quotient_neg_pos half dividend divisor below lower positive divisorUpper]
      omega
  · rcases lt_or_gt_of_ne nonzero with negative | positive
    · rw [quotient_nonneg_neg half dividend divisor nonneg upper negative divisorLower]
      omega
    · have agree := quotient_nonneg_pos half dividend divisor nonneg upper positive
        divisorUpper
      exact iff_of_true agree (Or.inl ⟨nonneg, positive⟩)

theorem remainder_nonneg (nonneg : 0 ≤ dividend) (small : dividend < 2 ^ half)
    (positive : 0 < divisor) (bounded : divisor < 2 ^ half) :
    residue (half + 1) dividend % residue (half + 1) divisor =
      residue (half + 1) (dividend.tmod divisor) := by
  have remainderNonneg := Int.emod_nonneg dividend positive.ne'
  have remainderLt := Int.emod_lt_of_pos dividend positive
  rw [Int.tmod_eq_emod_of_nonneg nonneg,
    residue_of_signed half dividend (by omega) (by omega),
    residue_of_signed half divisor (by omega) (by omega),
    residue_of_signed half (dividend % divisor) (by omega) (by omega),
    if_neg (by omega), if_neg (by omega), if_neg (by omega)]

theorem remainder_nonneg_neg (nonneg : 0 ≤ dividend) (small : dividend < 2 ^ half)
    (negative : divisor < 0) (bounded : -2 ^ half ≤ divisor) :
    residue (half + 1) dividend % residue (half + 1) divisor =
        residue (half + 1) (dividend.tmod divisor) ↔ dividend < -divisor := by
  have double : (2 : Int) ^ (half + 1) = 2 ^ half + 2 ^ half := by ring
  have remainderNonneg := Int.emod_nonneg dividend negative.ne
  have remainderLt := Int.emod_lt_of_pos dividend (show 0 < -divisor by omega)
  rw [Int.emod_neg] at remainderLt
  have rawSame : dividend % (divisor + 2 ^ (half + 1)) = dividend :=
    Int.emod_eq_of_lt nonneg (by omega)
  rw [Int.tmod_eq_emod_of_nonneg nonneg,
    residue_of_signed half dividend (by omega) (by omega),
    residue_of_signed half divisor (by omega) (by omega),
    residue_of_signed half (dividend % divisor) (by omega) (by omega),
    if_neg (by omega), if_pos negative, if_neg (by omega), rawSame]
  constructor
  · intro agree
    omega
  · intro less
    rw [← Int.emod_neg, Int.emod_eq_of_lt nonneg less]

theorem remainder_neg_pos (below : dividend < 0) (bounded : -2 ^ half ≤ dividend)
    (positive : 0 < divisor) (small : divisor < 2 ^ half) :
    residue (half + 1) dividend % residue (half + 1) divisor =
        residue (half + 1) (dividend.tmod divisor) ↔
      divisor ∣ dividend ∧ divisor ∣ 2 ^ (half + 1) := by
  have double : (2 : Int) ^ (half + 1) = 2 ^ half + 2 ^ half := by ring
  have flipped : dividend.tmod divisor = -(-dividend % divisor) := by
    rw [← Int.tmod_eq_emod_of_nonneg (by omega), Int.neg_tmod, neg_neg]
  have remainderNonneg := Int.emod_nonneg (-dividend) positive.ne'
  have remainderLt := Int.emod_lt_of_pos (-dividend) positive
  have rawNonneg := Int.emod_nonneg (dividend + 2 ^ (half + 1)) positive.ne'
  have rawLt := Int.emod_lt_of_pos (dividend + 2 ^ (half + 1)) positive
  rw [flipped, residue_of_signed half dividend (by omega) (by omega),
    residue_of_signed half divisor (by omega) (by omega),
    residue_of_signed half (-(-dividend % divisor)) (by omega) (by omega),
    if_pos below, if_neg (by omega)]
  constructor
  · intro agree
    -- a nonzero negative remainder is stored in the upper half, out of reach
    have bothZero : -dividend % divisor = 0 ∧
        (dividend + 2 ^ (half + 1)) % divisor = 0 := by
      split_ifs at agree <;> omega
    have divides : divisor ∣ dividend :=
      (Int.dvd_neg).mp (Int.dvd_of_emod_eq_zero bothZero.1)
    exact ⟨divides, (Int.dvd_add_right divides).mp
      (Int.dvd_of_emod_eq_zero bothZero.2)⟩
  · rintro ⟨divides, dividesModulus⟩
    rw [Int.emod_eq_zero_of_dvd (Int.dvd_add divides dividesModulus),
      Int.emod_eq_zero_of_dvd ((Int.dvd_neg).mpr divides)]
    simp

theorem remainder_neg_neg (below : dividend < 0) (bounded : -2 ^ half ≤ dividend)
    (negative : divisor < 0) (divisorBounded : -2 ^ half ≤ divisor) :
    residue (half + 1) dividend % residue (half + 1) divisor =
        residue (half + 1) (dividend.tmod divisor) ↔ dividend = divisor := by
  have double : (2 : Int) ^ (half + 1) = 2 ^ half + 2 ^ half := by ring
  have flipped : dividend.tmod divisor = -(-dividend % -divisor) := by
    rw [← Int.tmod_eq_emod_of_nonneg (by omega), Int.neg_tmod, Int.tmod_neg, neg_neg]
  have remainderNonneg := Int.emod_nonneg (-dividend) (show -divisor ≠ 0 by omega)
  have remainderLt := Int.emod_lt_of_pos (-dividend) (show 0 < -divisor by omega)
  rw [flipped, residue_of_signed half dividend (by omega) (by omega),
    residue_of_signed half divisor (by omega) (by omega),
    residue_of_signed half (-(-dividend % -divisor)) (by omega) (by omega),
    if_pos below, if_pos negative]
  rcases lt_trichotomy dividend divisor with less | same | greater
  · have rawSame := Int.emod_eq_of_lt (a := dividend + 2 ^ (half + 1))
      (b := divisor + 2 ^ (half + 1)) (by omega) (by omega)
    rw [rawSame]
    constructor
    · intro agree
      split_ifs at agree <;> omega
    · intro same
      omega
  · subst same
    simp
  · have selfRemainder := Int.emod_eq_of_lt (a := -dividend) (b := -divisor)
      (by omega) (by omega)
    have rawDifference : (dividend + 2 ^ (half + 1)) % (divisor + 2 ^ (half + 1)) =
        dividend - divisor := by
      rw [← Int.sub_emod_right, Int.emod_eq_of_lt] <;> omega
    rw [rawDifference, selfRemainder]
    constructor
    · intro agree
      split_ifs at agree <;> omega
    · intro same
      omega

theorem remainder_agrees_iff (lower : -2 ^ half ≤ dividend) (upper : dividend < 2 ^ half)
    (divisorLower : -2 ^ half ≤ divisor) (divisorUpper : divisor < 2 ^ half)
    (nonzero : divisor ≠ 0) :
    residue (half + 1) dividend % residue (half + 1) divisor =
        residue (half + 1) (dividend.tmod divisor) ↔
      RemainderAgrees half dividend divisor := by
  unfold RemainderAgrees
  rcases lt_or_ge dividend 0 with below | nonneg
  · rcases lt_or_gt_of_ne nonzero with negative | positive
    · rw [remainder_neg_neg half dividend divisor below lower negative divisorLower]
      omega
    · rw [remainder_neg_pos half dividend divisor below lower positive divisorUpper]
      constructor
      · intro divides
        exact Or.inr (Or.inr (Or.inl ⟨below, positive, divides⟩))
      · rintro (⟨_, _⟩ | ⟨_, _⟩ | ⟨_, _, divides⟩ | ⟨_, _⟩)
        · omega
        · omega
        · exact divides
        · omega
  · rcases lt_or_gt_of_ne nonzero with negative | positive
    · rw [remainder_nonneg_neg half dividend divisor nonneg upper negative divisorLower]
      omega
    · have agree := remainder_nonneg half dividend divisor nonneg upper positive
        divisorUpper
      exact iff_of_true agree (Or.inl ⟨nonneg, positive⟩)

end Division

end TwosComplement
