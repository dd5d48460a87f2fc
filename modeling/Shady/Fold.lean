import Shady.Ir.PrimOp

/-!
# Constant folding of integer expressions

Model of `fold_constant_math`, `fold_simplify_math` and `fold_prim_op` of
`src/shady/fold.c`, run bottom-up as `_shd_create_node_helper` does when an
expression is built.  The folder computes on the raw 64-bit field, so its result
is the run-time result exactly on the operands of `HostExact1` and `HostExact2`.
-/

set_option autoImplicit false

namespace Shady

open TwosComplement

/-- What the compiler itself may die of while folding. -/
inductive HostFault where
  | divisionByZero
deriving DecidableEq, Repr

/-- `shd_resolve_to_int_literal` -/
def resolveToIntLiteral : Node → Option IntLiteral
  | .intLiteral lit => some lit
  | .constantRef definition => resolveToIntLiteral definition
  | _ => none

/-- `is_zero` -/
def isZero (node : Node) : Bool :=
  match resolveToIntLiteral node with
  | some lit => getIntLiteralValue lit false == 0
  | none => false

/-- `is_one` -/
def isOne (node : Node) : Bool :=
  match resolveToIntLiteral node with
  | some lit => getIntLiteralValue lit false == 1
  | none => false

/-- The C operator that `UN_OP` puts in front of the `value` field. -/
def hostUnary (op : PrimOpTag) (field : BitVec 64) : Option (BitVec 64) :=
  match op with
  | .neg => some (-field)
  | _ => none

/-- The C operator that `BIN_OP` (and the `mod_op` case) puts between the two
`value` fields. -/
def hostBinary (op : PrimOpTag) (left right : BitVec 64) :
    Option (Except HostFault (BitVec 64)) :=
  match op with
  | .add => some (.ok (left + right))
  | .sub => some (.ok (left - right))
  | .mul => some (.ok (left * right))
  | .div => some (if right = 0 then .error .divisionByZero else .ok (left / right))
  | .mod => some (if right = 0 then .error .divisionByZero else .ok (left % right))
  | _ => none

/-- `bitmask` of the `convert_op` case. -/
def convertBitmask (dst : IntType) : BitVec 64 :=
  if dst.width.bits = 64 then BitVec.allOnes 64
  else ~~~(BitVec.allOnes 64 <<< dst.width.bits)

/-- `fold_constant_math`; `none` is the returned `NULL`. -/
def foldConstantMath (op : PrimOpTag) (typeArguments : List ScalarType)
    (operands : List Node) : Except HostFault (Option Node) :=
  match operands.mapM resolveToIntLiteral with
  | none => .ok none
  | some [first] =>
      match op, typeArguments with
      | .reinterpret, [.int dst] =>
          .ok (some (.intLiteral ⟨dst.width, dst.isSigned, first.value⟩))
      | .convert, [.int dst] =>
          let oldValue := getIntLiteralValue first first.isSigned
          .ok (some (.intLiteral
            ⟨dst.width, dst.isSigned, oldValue &&& convertBitmask dst⟩))
      | _, _ =>
          match hostUnary op first.value with
          | some field => .ok (some (.intLiteral ⟨first.width, first.isSigned, field⟩))
          | none => .ok none
  | some [first, last] =>
      -- `int_width` and `is_signed` are left by the last operand of the loop
      match hostBinary op first.value last.value with
      | some result =>
          result.map fun field => some (.intLiteral ⟨last.width, last.isSigned, field⟩)
      | none => .ok none
  | some _ => .ok none

/-- Node creation for one operand: `fold_prim_op` with its `identity casts` case. -/
def createPrimOp1 (op : PrimOpTag) (typeArguments : List ScalarType) (operand : Node) :
    Except HostFault Node := do
  match ← foldConstantMath op typeArguments [operand] with
  | some folded => pure folded
  | none =>
      match op, typeArguments with
      | .convert, [dst] | .reinterpret, [dst] =>
          if typeOf operand = some dst then pure operand
          else pure (.primOp1 op typeArguments operand)
      | _, _ => pure (.primOp1 op typeArguments operand)

/-- `fold_simplify_math`; all its cases are two-operand operators. -/
def foldSimplifyMath (op : PrimOpTag) (lhs rhs : Node) : Except HostFault (Option Node) :=
  match op with
  | .add =>
      if isZero lhs then .ok (some rhs)
      else if isZero rhs then .ok (some lhs)
      else .ok none
  | .sub =>
      if isZero rhs then .ok (some lhs)
      else if isZero lhs then (createPrimOp1 .neg [] rhs).map some
      else .ok none
  | .mul =>
      if isZero lhs then .ok (some lhs)
      else if isZero rhs then .ok (some rhs)
      else if isOne lhs then .ok (some rhs)
      else if isOne rhs then .ok (some lhs)
      else .ok none
  | .div => if isOne rhs then .ok (some lhs) else .ok none
  | .eq => if lhs = rhs then .ok (some (.boolLiteral true)) else .ok none
  | .neq => if lhs = rhs then .ok (some (.boolLiteral false)) else .ok none
  | _ => .ok none

/-- Node creation for two operands. -/
def createPrimOp2 (op : PrimOpTag) (lhs rhs : Node) : Except HostFault Node := do
  match ← foldConstantMath op [] [lhs, rhs] with
  | some folded => pure folded
  | none =>
      match ← foldSimplifyMath op lhs rhs with
      | some folded => pure folded
      | none => pure (.primOp2 op lhs rhs)

/-- Node creation for three operands. -/
def createPrimOp3 (op : PrimOpTag) (first second third : Node) :
    Except HostFault Node := do
  match ← foldConstantMath op [] [first, second, third] with
  | some folded => pure folded
  | none => pure (.primOp3 op first second third)

/-- Builds an expression operands first, folding every node on creation. -/
def build : Node → Except HostFault Node
  | .constantRef definition => do pure (.constantRef (← build definition))
  | .primOp1 op typeArguments operand => do
      createPrimOp1 op typeArguments (← build operand)
  | .primOp2 op lhs rhs => do
      let newLhs ← build lhs
      let newRhs ← build rhs
      createPrimOp2 op newLhs newRhs
  | .primOp3 op first second third => do
      let newFirst ← build first
      let newSecond ← build second
      let newThird ← build third
      createPrimOp3 op newFirst newSecond newThird
  | node => pure node

/-- Every integer literal inside the node is canonical. -/
def Node.Canonical : Node → Prop
  | .intLiteral lit => lit.Canonical
  | .boolLiteral _ => True
  | .value _ _ => True
  | .constantRef definition => definition.Canonical
  | .primOp1 _ _ operand => operand.Canonical
  | .primOp2 _ lhs rhs => lhs.Canonical ∧ rhs.Canonical
  | .primOp3 _ first second third =>
      first.Canonical ∧ second.Canonical ∧ third.Canonical

/-! ## The operands on which the host arithmetic is exact -/

/-- `op` on the raw field of a literal of value `x` is the typed operation. -/
def HostExact1 (op : PrimOpTag) (type : IntType) (x : Int) : Prop :=
  match op with
  | .neg => type.width = .intTy64 ∨ x = 0
  | _ => True

/-- `op` on the raw fields of literals of values `x` and `y` is the typed
operation: no carry, borrow or overflow leaves a narrow type, and an unsigned
division of the patterns is the division the type asks for. -/
def HostExact2 (op : PrimOpTag) (type : IntType) (x y : Int) : Prop :=
  match op with
  | .add => type.width = .intTy64 ∨ type.pattern x + type.pattern y < 2 ^ type.width.bits
  | .sub => type.width = .intTy64 ∨ type.pattern y ≤ type.pattern x
  | .mul => type.width = .intTy64 ∨ type.pattern x * type.pattern y < 2 ^ type.width.bits
  | .div => y ≠ 0 ∧ (type.isSigned = true → QuotientAgrees x y)
  | .mod => y ≠ 0 ∧ (type.isSigned = true → RemainderAgrees (type.width.bits - 1) x y)
  | _ => True

instance (op : PrimOpTag) (type : IntType) (x : Int) : Decidable (HostExact1 op type x) := by
  unfold HostExact1; split <;> infer_instance

instance (op : PrimOpTag) (type : IntType) (x y : Int) :
    Decidable (HostExact2 op type x y) := by
  unfold HostExact2; split <;> infer_instance

section Host
variable (type : IntType) (x y : Int)

theorem pattern_add : type.pattern (x + y) =
    (type.pattern x + type.pattern y) % 2 ^ type.width.bits := Int.add_emod _ _ _

theorem pattern_sub : type.pattern (x - y) =
    (type.pattern x - type.pattern y) % 2 ^ type.width.bits := Int.sub_emod _ _ _

theorem pattern_mul : type.pattern (x * y) =
    (type.pattern x * type.pattern y) % 2 ^ type.width.bits := Int.mul_emod _ _ _

theorem pattern_neg : type.pattern (-x) =
    (-type.pattern x) % 2 ^ type.width.bits :=
  (Int.ModEq.neg (Int.mod_modEq x (2 ^ type.width.bits))).symm

/-- A host word equal to `z` modulo `2 ^ 64` holds the pattern of `z` exactly when
nothing of it lies above the type's width. -/
theorem emod_host_eq_iff (type : IntType) (z : Int) :
    z % 2 ^ 64 = z % 2 ^ type.width.bits ↔
      type.width = .intTy64 ∨ z % 2 ^ 64 < 2 ^ type.width.bits := by
  have divides : (2 : Int) ^ type.width.bits ∣ 2 ^ 64 :=
    pow_dvd_pow 2 type.width.bits_le
  rw [← Int.emod_emod_of_dvd z divides]
  have nonneg : 0 ≤ z % 2 ^ 64 := Int.emod_nonneg _ (by norm_num)
  constructor
  · intro same
    right
    rw [same]
    exact Int.emod_lt_of_pos _ (by positivity)
  · rintro (full | small)
    · have host := Int.emod_lt_of_pos z (show (0 : Int) < 2 ^ 64 by norm_num)
      have bits : type.width.bits = 64 := by rw [full]; rfl
      rw [bits]
      exact (Int.emod_eq_of_lt nonneg host).symm
    · exact (Int.emod_eq_of_lt nonneg small).symm

/-- The field the host computes, as an integer: reduced modulo `2 ^ 64` only. -/
theorem host_add : (((canonicalLiteral type x).value + (canonicalLiteral type y).value).toNat : Int) =
    (type.pattern x + type.pattern y) % 2 ^ 64 := by
  rw [BitVec.toNat_add]
  push_cast
  rw [canonicalLiteral_value, canonicalLiteral_value]

theorem host_sub : (((canonicalLiteral type x).value - (canonicalLiteral type y).value).toNat : Int) =
    (type.pattern x - type.pattern y) % 2 ^ 64 := by
  have rightLt := (canonicalLiteral type y).value.isLt
  rw [BitVec.toNat_sub]
  push_cast [Nat.cast_sub rightLt.le]
  rw [canonicalLiteral_value, canonicalLiteral_value]
  omega

theorem host_mul : (((canonicalLiteral type x).value * (canonicalLiteral type y).value).toNat : Int) =
    (type.pattern x * type.pattern y) % 2 ^ 64 := by
  rw [BitVec.toNat_mul]
  push_cast
  rw [canonicalLiteral_value, canonicalLiteral_value]

theorem host_neg : ((-(canonicalLiteral type x).value).toNat : Int) =
    (-type.pattern x) % 2 ^ 64 := by
  have small := (canonicalLiteral type x).value.isLt
  rw [BitVec.toNat_neg]
  push_cast [Nat.cast_sub small.le]
  rw [canonicalLiteral_value]
  omega

theorem host_div : (((canonicalLiteral type x).value / (canonicalLiteral type y).value).toNat : Int) =
    type.pattern x / type.pattern y := by
  rw [BitVec.toNat_udiv]
  push_cast
  rw [canonicalLiteral_value, canonicalLiteral_value]

theorem host_mod : (((canonicalLiteral type x).value % (canonicalLiteral type y).value).toNat : Int) =
    type.pattern x % type.pattern y := by
  rw [BitVec.toNat_umod]
  push_cast
  rw [canonicalLiteral_value, canonicalLiteral_value]

theorem host_add_iff :
    (((canonicalLiteral type x).value + (canonicalLiteral type y).value).toNat : Int) =
        type.pattern (x + y) ↔ HostExact2 .add type x y := by
  have left := type.pattern_nonneg x
  have right := type.pattern_nonneg y
  have leftLt := type.pattern_lt x
  have rightLt := type.pattern_lt y
  rw [host_add, pattern_add, emod_host_eq_iff]
  refine or_congr_right' fun narrow => ?_
  have bits := type.width.bits_cases.resolve_left narrow
  have small : (2 : Int) ^ type.width.bits ≤ 2 ^ 32 :=
    pow_le_pow_right₀ (by norm_num) bits
  rw [Int.emod_eq_of_lt (by omega) (by omega)]

theorem host_sub_iff :
    (((canonicalLiteral type x).value - (canonicalLiteral type y).value).toNat : Int) =
        type.pattern (x - y) ↔ HostExact2 .sub type x y := by
  have left := type.pattern_nonneg x
  have right := type.pattern_nonneg y
  have leftLt := type.pattern_lt x
  have rightLt := type.pattern_lt y
  rw [host_sub, pattern_sub, emod_host_eq_iff]
  refine or_congr_right' fun narrow => ?_
  have bits := type.width.bits_cases.resolve_left narrow
  have small : (2 : Int) ^ type.width.bits ≤ 2 ^ 32 :=
    pow_le_pow_right₀ (by norm_num) bits
  constructor
  · intro below
    by_contra borrow
    rw [← Int.add_emod_right, Int.emod_eq_of_lt (by omega) (by omega)] at below
    omega
  · intro noBorrow
    rw [Int.emod_eq_of_lt (by omega) (by omega)]
    omega

theorem host_mul_iff :
    (((canonicalLiteral type x).value * (canonicalLiteral type y).value).toNat : Int) =
        type.pattern (x * y) ↔ HostExact2 .mul type x y := by
  have left := type.pattern_nonneg x
  have right := type.pattern_nonneg y
  have leftLt := type.pattern_lt x
  have rightLt := type.pattern_lt y
  rw [host_mul, pattern_mul, emod_host_eq_iff]
  refine or_congr_right' fun narrow => ?_
  have bits := type.width.bits_cases.resolve_left narrow
  have small : (2 : Int) ^ type.width.bits ≤ 2 ^ 32 :=
    pow_le_pow_right₀ (by norm_num) bits
  have bounded : type.pattern x * type.pattern y < 2 ^ 64 := by
    calc type.pattern x * type.pattern y
        ≤ (2 ^ 32 - 1) * (2 ^ 32 - 1) :=
          mul_le_mul (by omega) (by omega) right (by norm_num)
      _ < 2 ^ 64 := by norm_num
  rw [Int.emod_eq_of_lt (mul_nonneg left right) bounded]

theorem host_neg_iff (holds : type.Holds x) :
    ((-(canonicalLiteral type x).value).toNat : Int) = type.pattern (-x) ↔
      HostExact1 .neg type x := by
  have nonneg := type.pattern_nonneg x
  have small := type.pattern_lt x
  rw [host_neg, pattern_neg, emod_host_eq_iff]
  refine or_congr_right' fun narrow => ?_
  have bits := type.width.bits_cases.resolve_left narrow
  have modulus : (2 : Int) ^ type.width.bits ≤ 2 ^ 32 :=
    pow_le_pow_right₀ (by norm_num) bits
  constructor
  · intro below
    have zero : type.pattern x = 0 := by
      by_contra nonzero
      rw [← Int.add_emod_right, Int.emod_eq_of_lt (by omega) (by omega)] at below
      omega
    have same : type.wrap x = type.wrap 0 := type.wrap_eq_of_pattern (by
      rw [zero]; simp [IntType.pattern, residue])
    rw [← holds, same]
    cases signed : type.isSigned <;> simp [IntType.wrap, reading, signed]
  · rintro rfl
    have zero : type.pattern 0 = 0 := by simp [IntType.pattern, residue]
    rw [zero]
    simp

/-- Bounds of a value of a signed type. -/
theorem signed_bounds (signed : type.isSigned = true) (holds : type.Holds x) :
    -2 ^ (type.width.bits - 1) ≤ x ∧ x < 2 ^ (type.width.bits - 1) := by
  have bounds := signed_reading_bounds (type.width.bits - 1) x
  rw [← type.width.bits_eq_succ] at bounds
  have same : reading type.width.bits true x = x := by
    rw [← signed]; exact holds
  rwa [same] at bounds

/-- A value of an unsigned type is its own pattern. -/
theorem unsigned_pattern (unsigned : type.isSigned = false) (holds : type.Holds x) :
    type.pattern x = x := by
  have same : reading type.width.bits false x = x := by
    rw [← unsigned]; exact holds
  exact same

theorem host_div_iff (left : type.Holds x) (right : type.Holds y) (nonzero : y ≠ 0) :
    (((canonicalLiteral type x).value / (canonicalLiteral type y).value).toNat : Int) =
        type.pattern (x.tdiv y) ↔ (type.isSigned = true → QuotientAgrees x y) := by
  rw [host_div]
  cases signed : type.isSigned with
  | true =>
      obtain ⟨lower, upper⟩ := signed_bounds type x signed left
      obtain ⟨divisorLower, divisorUpper⟩ := signed_bounds type y signed right
      have agrees := quotient_agrees_iff (type.width.bits - 1) x y lower upper
        divisorLower divisorUpper nonzero
      rw [← type.width.bits_eq_succ] at agrees
      simpa [IntType.pattern] using agrees
  | false =>
      have xPattern := unsigned_pattern type x signed left
      have yPattern := unsigned_pattern type y signed right
      have xNonneg : 0 ≤ x := xPattern ▸ type.pattern_nonneg x
      have yNonneg : 0 ≤ y := yPattern ▸ type.pattern_nonneg y
      have small := type.pattern_lt x
      have quotientNonneg : 0 ≤ x / y := Int.ediv_nonneg xNonneg yNonneg
      have quotientLe : x / y ≤ x := Int.ediv_le_self _ xNonneg
      have quotientPattern : type.pattern (x / y) = x / y :=
        residue_of_lt _ _ quotientNonneg (by omega)
      rw [xPattern, yPattern, Int.tdiv_eq_ediv_of_nonneg xNonneg, quotientPattern]
      simp

theorem host_mod_iff (left : type.Holds x) (right : type.Holds y) (nonzero : y ≠ 0) :
    (((canonicalLiteral type x).value % (canonicalLiteral type y).value).toNat : Int) =
        type.pattern (x.tmod y) ↔
      (type.isSigned = true → RemainderAgrees (type.width.bits - 1) x y) := by
  rw [host_mod]
  cases signed : type.isSigned with
  | true =>
      obtain ⟨lower, upper⟩ := signed_bounds type x signed left
      obtain ⟨divisorLower, divisorUpper⟩ := signed_bounds type y signed right
      have agrees := remainder_agrees_iff (type.width.bits - 1) x y lower upper
        divisorLower divisorUpper nonzero
      rw [← type.width.bits_eq_succ] at agrees
      simpa [IntType.pattern] using agrees
  | false =>
      have xPattern := unsigned_pattern type x signed left
      have yPattern := unsigned_pattern type y signed right
      have xNonneg : 0 ≤ x := xPattern ▸ type.pattern_nonneg x
      have yNonneg : 0 ≤ y := yPattern ▸ type.pattern_nonneg y
      have small := type.pattern_lt y
      have remainderNonneg := Int.emod_nonneg x nonzero
      have remainderLt := Int.emod_lt_of_pos x (show 0 < y by omega)
      have remainderPattern : type.pattern (x % y) = x % y :=
        residue_of_lt _ _ remainderNonneg (by omega)
      rw [xPattern, yPattern, Int.tmod_eq_emod_of_nonneg xNonneg, remainderPattern]
      simp

/-- A literal field is zero exactly when the value is. -/
theorem field_zero_iff (holds : type.Holds y) :
    (canonicalLiteral type y).value = 0 ↔ y = 0 := by
  have zeroPattern : type.pattern 0 = 0 := by simp [IntType.pattern, residue]
  have zeroWrap : type.wrap 0 = 0 := by
    cases signed : type.isSigned <;> simp [IntType.wrap, reading, signed]
  constructor
  · intro zero
    have pattern := canonicalLiteral_value type y
    rw [zero] at pattern
    rw [← holds, ← zeroWrap]
    exact type.wrap_eq_of_pattern (by rw [← pattern, zeroPattern]; rfl)
  · rintro rfl
    simp [canonicalLiteral, zeroPattern]

end Host

end Shady
