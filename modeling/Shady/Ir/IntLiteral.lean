import Shady.Library.TwosComplement

/-!
# Integer types and literals

Model of `src/shady/ir/int.c`: the `Int` type payload, the 64-bit `value` field
of an `IntLiteral` node, the literal builders and `shd_get_int_literal_value`.
A literal is canonical when its field is below `2 ^ width`; the builders only
produce canonical literals.
-/

set_option autoImplicit false

namespace Shady

open TwosComplement

inductive IntSizes where
  | intTy8
  | intTy16
  | intTy32
  | intTy64
deriving DecidableEq, Repr

/-- `int_size_in_bytes` -/
def IntSizes.sizeInBytes : IntSizes → Nat
  | .intTy8 => 1
  | .intTy16 => 2
  | .intTy32 => 4
  | .intTy64 => 8

def IntSizes.bits (width : IntSizes) : Nat := width.sizeInBytes * 8

/-- Payload of the `Int` type node. -/
structure IntType where
  width : IntSizes
  isSigned : Bool
deriving DecidableEq, Repr

/-- Payload of the `IntLiteral` node; `value` is the `uint64_t` field. -/
structure IntLiteral where
  width : IntSizes
  isSigned : Bool
  value : BitVec 64
deriving DecidableEq, Repr

def IntLiteral.type (lit : IntLiteral) : IntType := ⟨lit.width, lit.isSigned⟩

/-- `shd_get_int_literal_value`; the result is the returned `int64_t`. -/
def getIntLiteralValue (lit : IntLiteral) (signExtend : Bool) : BitVec 64 :=
  if signExtend then
    match lit.width with
    | .intTy8 => ((lit.value &&& 0xFF#64).setWidth 8).signExtend 64
    | .intTy16 => ((lit.value &&& 0xFFFF#64).setWidth 16).signExtend 64
    | .intTy32 => ((lit.value &&& 0xFFFFFFFF#64).setWidth 32).signExtend 64
    | .intTy64 => lit.value
  else
    match lit.width with
    | .intTy8 => lit.value &&& 0xFF#64
    | .intTy16 => lit.value &&& 0xFFFF#64
    | .intTy32 => lit.value &&& 0xFFFFFFFF#64
    | .intTy64 => lit.value

/-- `(uint64_t) (uintN_t) i`, the field the builder of one width writes. -/
def intLiteralHelper (width : IntSizes) (isSigned : Bool) (i : BitVec width.bits) :
    IntLiteral :=
  ⟨width, isSigned, i.setWidth 64⟩

/-- `shd_int8_literal` -/
def int8Literal (i : BitVec 8) : IntLiteral := intLiteralHelper .intTy8 true i
/-- `shd_int16_literal` -/
def int16Literal (i : BitVec 16) : IntLiteral := intLiteralHelper .intTy16 true i
/-- `shd_int32_literal` -/
def int32Literal (i : BitVec 32) : IntLiteral := intLiteralHelper .intTy32 true i
/-- `shd_int64_literal` -/
def int64Literal (i : BitVec 64) : IntLiteral := intLiteralHelper .intTy64 true i
/-- `shd_uint8_literal` -/
def uint8Literal (i : BitVec 8) : IntLiteral := intLiteralHelper .intTy8 false i
/-- `shd_uint16_literal` -/
def uint16Literal (i : BitVec 16) : IntLiteral := intLiteralHelper .intTy16 false i
/-- `shd_uint32_literal` -/
def uint32Literal (i : BitVec 32) : IntLiteral := intLiteralHelper .intTy32 false i
/-- `shd_uint64_literal` -/
def uint64Literal (i : BitVec 64) : IntLiteral := intLiteralHelper .intTy64 false i

/-! ## Canonical literals and what they denote -/

/-- The literal fits its width, as every builder leaves it. -/
def IntLiteral.Canonical (lit : IntLiteral) : Prop :=
  lit.value.toNat < 2 ^ lit.width.bits

instance (lit : IntLiteral) : Decidable lit.Canonical := by
  unfold IntLiteral.Canonical; infer_instance

theorem intLiteralHelper_canonical (width : IntSizes) (isSigned : Bool)
    (i : BitVec width.bits) : (intLiteralHelper width isSigned i).Canonical := by
  have small := i.isLt
  simp only [IntLiteral.Canonical, intLiteralHelper, BitVec.toNat_setWidth]
  exact (Nat.mod_le _ _).trans_lt small

/-- The value of type `type` congruent to `z` modulo `2 ^ width`. -/
def IntType.wrap (type : IntType) (z : Int) : Int :=
  reading type.width.bits type.isSigned z

/-- The stored pattern of `z`. -/
def IntType.pattern (type : IntType) (z : Int) : Int := residue type.width.bits z

/-- The integer a literal stands for at run time. -/
def IntLiteral.denotes (lit : IntLiteral) : Int := lit.type.wrap lit.value.toNat

/-- The literal the builders give for the value `z` of type `type`. -/
def canonicalLiteral (type : IntType) (z : Int) : IntLiteral :=
  ⟨type.width, type.isSigned, BitVec.ofInt 64 (type.pattern z)⟩

theorem IntSizes.bits_eq_succ (width : IntSizes) :
    width.bits = (width.bits - 1) + 1 := by
  cases width <;> rfl

theorem IntSizes.bits_le (width : IntSizes) : width.bits ≤ 64 := by
  cases width <;> decide

theorem IntSizes.bits_cases (width : IntSizes) :
    width = .intTy64 ∨ width.bits ≤ 32 := by
  cases width <;> simp [IntSizes.bits, IntSizes.sizeInBytes]

theorem IntType.pattern_nonneg (type : IntType) (z : Int) : 0 ≤ type.pattern z :=
  residue_nonneg _ z

theorem IntType.pattern_lt (type : IntType) (z : Int) :
    type.pattern z < 2 ^ type.width.bits := residue_lt _ z

theorem IntType.pattern_lt_host (type : IntType) (z : Int) :
    type.pattern z < 2 ^ 64 :=
  (type.pattern_lt z).trans_le
    (pow_le_pow_right₀ (by norm_num) type.width.bits_le)

@[simp] theorem IntType.pattern_wrap (type : IntType) (z : Int) :
    type.pattern (type.wrap z) = type.pattern z := residue_reading _ _ z

@[simp] theorem IntType.wrap_pattern (type : IntType) (z : Int) :
    type.wrap (type.pattern z) = type.wrap z := reading_residue _ _ z

@[simp] theorem IntType.wrap_wrap (type : IntType) (z : Int) :
    type.wrap (type.wrap z) = type.wrap z := reading_reading _ _ z

theorem IntType.wrap_eq_of_pattern (type : IntType) {left right : Int}
    (same : type.pattern left = type.pattern right) :
    type.wrap left = type.wrap right := reading_congr _ _ same

/-- A value of the type is its own wrap. -/
def IntType.Holds (type : IntType) (z : Int) : Prop := type.wrap z = z

theorem IntType.holds_wrap (type : IntType) (z : Int) : type.Holds (type.wrap z) :=
  type.wrap_wrap z

theorem IntLiteral.holds_denotes (lit : IntLiteral) : lit.type.Holds lit.denotes :=
  lit.type.holds_wrap _

@[simp] theorem canonicalLiteral_type (type : IntType) (z : Int) :
    (canonicalLiteral type z).type = type := rfl

theorem canonicalLiteral_value (type : IntType) (z : Int) :
    ((canonicalLiteral type z).value.toNat : Int) = type.pattern z := by
  have nonneg := type.pattern_nonneg z
  have small := type.pattern_lt_host z
  simp only [canonicalLiteral, BitVec.toNat_ofInt]
  rw [Int.toNat_of_nonneg (Int.emod_nonneg _ (by norm_num))]
  exact Int.emod_eq_of_lt nonneg (by simpa using small)

theorem canonicalLiteral_canonical (type : IntType) (z : Int) :
    (canonicalLiteral type z).Canonical := by
  have value := canonicalLiteral_value type z
  have small := type.pattern_lt z
  unfold IntLiteral.Canonical
  rw [← value] at small
  exact_mod_cast small

@[simp] theorem canonicalLiteral_denotes (type : IntType) (z : Int) :
    (canonicalLiteral type z).denotes = type.wrap z := by
  unfold IntLiteral.denotes
  rw [canonicalLiteral_value, canonicalLiteral_type, IntType.wrap_pattern]

theorem canonical_pattern (lit : IntLiteral) (canonical : lit.Canonical) :
    lit.type.pattern lit.denotes = (lit.value.toNat : Int) := by
  have small : ((lit.value.toNat : Nat) : Int) < 2 ^ lit.width.bits := by
    exact_mod_cast canonical
  unfold IntLiteral.denotes
  rw [IntType.pattern_wrap]
  exact residue_of_lt _ _ (by omega) small

theorem intLiteral_ext (left right : IntLiteral) (type : left.type = right.type)
    (value : (left.value.toNat : Int) = right.value.toNat) : left = right := by
  obtain ⟨leftWidth, leftSigned, leftValue⟩ := left
  obtain ⟨rightWidth, rightSigned, rightValue⟩ := right
  simp only [IntLiteral.type, IntType.mk.injEq] at type
  have sameValue : leftValue = rightValue := BitVec.eq_of_toNat_eq (by exact_mod_cast value)
  rw [type.1, type.2, sameValue]

/-- A canonical literal is determined by its type and the value it denotes. -/
theorem canonical_iff (lit : IntLiteral) :
    lit.Canonical ↔ lit = canonicalLiteral lit.type lit.denotes := by
  constructor
  · intro canonical
    refine intLiteral_ext _ _ rfl ?_
    rw [canonicalLiteral_value, canonical_pattern lit canonical]
  · intro same
    rw [same]
    exact canonicalLiteral_canonical _ _

/-- A literal of the right type is the canonical one for `z` exactly when its
field is the pattern of `z`. -/
theorem eq_canonicalLiteral_iff (type : IntType) (z : Int) (value : BitVec 64) :
    (⟨type.width, type.isSigned, value⟩ : IntLiteral) = canonicalLiteral type z ↔
      (value.toNat : Int) = type.pattern z := by
  constructor
  · intro same
    have sameValue := congrArg (fun lit => (lit.value.toNat : Int)) same
    simpa only [canonicalLiteral_value] using sameValue
  · intro same
    refine intLiteral_ext _ _ rfl ?_
    rw [canonicalLiteral_value]
    exact same

/-! ## Reading the field back -/

theorem and_mask_toNat (value mask : BitVec 64) (bits : Nat)
    (ones : mask.toNat = 2 ^ bits - 1) :
    (value &&& mask).toNat = value.toNat % 2 ^ bits := by
  rw [BitVec.toNat_and, ones, Nat.and_two_pow_sub_one_eq_mod]

theorem pattern_natCast (type : IntType) (n : Nat) :
    type.pattern n = ((n % 2 ^ type.width.bits : Nat) : Int) := by
  simp [IntType.pattern, residue]

theorem getIntLiteralValue_unsigned (lit : IntLiteral) :
    ((getIntLiteralValue lit false).toNat : Int) =
      lit.type.pattern lit.value.toNat := by
  rw [pattern_natCast]
  obtain ⟨width, isSigned, value⟩ := lit
  have small := value.isLt
  cases width with
  | intTy8 => exact congrArg _ (and_mask_toNat value 0xFF#64 8 rfl)
  | intTy16 => exact congrArg _ (and_mask_toNat value 0xFFFF#64 16 rfl)
  | intTy32 => exact congrArg _ (and_mask_toNat value 0xFFFFFFFF#64 32 rfl)
  | intTy64 => exact congrArg _ (Nat.mod_eq_of_lt small).symm

theorem signExtend_masked (value mask : BitVec 64) (bits : Nat) (narrow : bits ≤ 64)
    (ones : mask.toNat = 2 ^ bits - 1) :
    (((value &&& mask).setWidth bits).signExtend 64).toInt =
      reading bits true value.toNat := by
  have cast : (((value &&& mask).setWidth bits).toNat : Int) =
      ((value.toNat % 2 ^ bits : Nat) : Int) := by
    rw [BitVec.toNat_setWidth, and_mask_toNat value mask bits ones, Nat.mod_mod]
  rw [BitVec.toInt_signExtend, Nat.min_eq_right narrow, BitVec.toInt_eq_toNat_bmod, cast,
    Int.bmod_bmod, Int.natCast_mod, Int.emod_bmod]
  rfl

theorem getIntLiteralValue_signed (lit : IntLiteral) :
    (getIntLiteralValue lit true).toInt =
      reading lit.width.bits true lit.value.toNat := by
  obtain ⟨width, isSigned, value⟩ := lit
  cases width with
  | intTy8 => exact signExtend_masked value 0xFF#64 8 (by decide) rfl
  | intTy16 => exact signExtend_masked value 0xFFFF#64 16 (by decide) rfl
  | intTy32 => exact signExtend_masked value 0xFFFFFFFF#64 32 (by decide) rfl
  | intTy64 =>
      have full : IntSizes.intTy64.bits = 64 := rfl
      simp only [getIntLiteralValue, if_true, reading, full]
      exact BitVec.toInt_eq_toNat_bmod value

/-- Extended according to its own signedness, the field is congruent to the
denoted integer modulo the host word. -/
theorem getIntLiteralValue_modEq (lit : IntLiteral) :
    ((getIntLiteralValue lit lit.isSigned).toNat : Int) ≡ lit.denotes
      [ZMOD 2 ^ 64] := by
  cases signed : lit.isSigned with
  | false =>
      rw [getIntLiteralValue_unsigned]
      have unsigned : lit.denotes = lit.type.pattern lit.value.toNat := by
        simp [IntLiteral.denotes, IntType.wrap, IntType.pattern, IntLiteral.type, signed,
          unsigned_reading_eq_residue]
      rw [unsigned]
  | true =>
      have denoted : lit.denotes = (getIntLiteralValue lit true).toInt := by
        rw [getIntLiteralValue_signed]
        simp [IntLiteral.denotes, IntType.wrap, IntLiteral.type, signed]
      rw [denoted, BitVec.toInt_eq_toNat_bmod]
      generalize ((getIntLiteralValue lit true).toNat : Int) = field
      simpa only [reading, if_true] using (reading_modEq 64 true field).symm

end Shady
