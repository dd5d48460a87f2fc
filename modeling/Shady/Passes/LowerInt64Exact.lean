import Shady.Library.Fallible
import Shady.Passes.LowerInt64

/-!
# Which 64-bit integers are emulated

An addition is never rewritten, since the builder is asked for the results of what is no memory
operation, and the other operators are left to a check that takes no records. What remains is
emulated exactly.
-/

set_option autoImplicit false

namespace Shady.LowerInt64

open Fallible TwosComplement

/-! ## Halves -/

theorem ofInt_eq_iff (x y : Int) :
    BitVec.ofInt 64 x = BitVec.ofInt 64 y ↔ residue 64 x = residue 64 y := by
  have read (z : Int) : ((BitVec.ofInt 64 z).toNat : Int) = residue 64 z := by
    rw [BitVec.toNat_ofInt, Int.toNat_of_nonneg (Int.emod_nonneg _ (by decide))]
    rfl
  constructor
  · intro same
    rw [← read, ← read, same]
  · intro same
    apply BitVec.eq_of_toNat_eq
    have cast : ((BitVec.ofInt 64 x).toNat : Int) = (BitVec.ofInt 64 y).toNat := by
      rw [read, read, same]
    exact_mod_cast cast

theorem halves_eq_iff (x y : Int) : halves x = halves y ↔ residue 64 x = residue 64 y := by
  rw [← ofInt_eq_iff]
  constructor
  · intro same
    obtain ⟨low, high⟩ := Prod.ext_iff.mp same
    apply BitVec.eq_of_toNat_eq
    have low := congrArg BitVec.toNat low
    have high := congrArg BitVec.toNat high
    simp only [halves, BitVec.toNat_setWidth, BitVec.toNat_ushiftRight, Nat.shiftRight_eq_div_pow] at low high
    have xSmall := (BitVec.ofInt 64 x).isLt
    have ySmall := (BitVec.ofInt 64 y).isLt
    omega
  · intro same
    rw [halves, halves, same]

theorem halves_wrap {type : IntType} (wide : type.width = .intTy64) (z : Int) :
    halves (type.wrap z) = halves z := by
  rw [halves_eq_iff]
  have kept := type.pattern_wrap z
  rw [IntType.pattern, IntType.pattern, wide] at kept
  exact kept

/-- Values of a 64-bit type are the same when their halves are. -/
theorem eq_of_halves {type : IntType} (wide : type.width = .intTy64) {x y : Int}
    (xHolds : type.Holds x) (yHolds : type.Holds y) (same : halves x = halves y) : x = y := by
  have patterns : type.pattern x = type.pattern y := by
    rw [IntType.pattern, IntType.pattern, wide]
    exact (halves_eq_iff x y).mp same
  calc x = type.wrap x := xHolds.symm
    _ = type.wrap y := type.wrap_eq_of_pattern patterns
    _ = y := yHolds

/-! ## Types and values -/

theorem is64_of_wide {type : IntType} (wide : type.width = .intTy64) : is64 (.int type) = true :=
  decide_eq_true wide

theorem is64_of_narrow {type : IntType} (narrow : type.width ≠ .intTy64) :
    is64 (.int type) = false := decide_eq_false narrow

/-- The type of what a node becomes. -/
def becomes (node : Node) (type : ScalarType) : LoweredType :=
  if is64 type then .pair (!fromLiteral node) else .scalar type

theorem becomes_of_narrow {node : Node} {type : ScalarType} (narrow : is64 type = false) :
    becomes node type = .scalar type := by
  rw [becomes, if_neg (by simp [narrow])]

theorem becomes_of_wide {node : Node} {type : ScalarType} (wide : is64 type = true) :
    becomes node type = .pair (!fromLiteral node) := if_pos wide

theorem becomes_eq_lowerType {node : Node} {type : ScalarType} (other : fromLiteral node = false) :
    becomes node type = lowerType type := by
  rw [becomes, lowerType, other]
  rfl

theorem lowerType_of_narrow {type : ScalarType} (narrow : is64 type = false) :
    lowerType type = .scalar type := if_neg (by simp [narrow])

theorem no64_becomes (node : Node) (type : ScalarType) : (becomes node type).no64 = true := by
  cases wide : is64 type with
  | true =>
      rw [becomes_of_wide wide]
      rfl
  | false =>
      rw [becomes_of_narrow wide, LoweredType.no64, wide]
      rfl

theorem no64_lowerType (type : ScalarType) : (lowerType type).no64 = true := by
  have kept := no64_becomes (.boolLiteral true) type
  rwa [becomes_eq_lowerType rfl] at kept

theorem represent_of_narrow {v : Value} {type : ScalarType} (typed : v.HasType type)
    (narrow : is64 type = false) : represent v = .scalar v := by
  cases v with
  | bool b => rfl
  | int actual z =>
      cases type with
      | bool => exact typed.elim
      | int expected =>
          obtain ⟨rfl, _⟩ := typed
          rw [represent, if_neg (of_decide_eq_false narrow)]

/-- A value of a 64-bit type and its halves. -/
theorem represent_of_wide {v : Value} {type : ScalarType} (typed : v.HasType type)
    (wide : is64 type = true) : ∃ intType z, type = .int intType ∧ intType.width = .intTy64 ∧
      intType.Holds z ∧ v = .int intType z ∧ represent v = .pair (halves z).1 (halves z).2 := by
  cases type with
  | bool => exact nomatch wide
  | int intType =>
      obtain ⟨z, rfl, holds⟩ := Value.hasType_int typed
      have isWide := of_decide_eq_true wide
      exact ⟨intType, z, rfl, isWide, holds, rfl, if_pos isWide⟩

theorem mapM_scalar? {types : List ScalarType} (narrow : ∀ type ∈ types, is64 type = false) :
    (types.map lowerType).mapM LoweredType.scalar? = some types := by
  induction types with
  | nil => rfl
  | cons head tail ih =>
      rw [List.map_cons, List.mapM_cons, lowerType_of_narrow (narrow head List.mem_cons_self),
        ih fun type member => narrow type (List.mem_cons_of_mem _ member)]
      rfl

theorem narrow_of_mapM_scalar? {types found : List ScalarType}
    (all : (types.map lowerType).mapM LoweredType.scalar? = some found) :
    ∀ type ∈ types, is64 type = false := by
  induction types generalizing found with
  | nil => exact fun _ member => absurd member List.not_mem_nil
  | cons head tail ih =>
      rw [List.map_cons, List.mapM_cons] at all
      obtain ⟨first, isScalar, all⟩ := Option.bind_eq_some_iff.mp all
      obtain ⟨rest, others, _⟩ := Option.bind_eq_some_iff.mp all
      intro type member
      cases List.mem_cons.mp member with
      | inl same =>
          subst same
          by_contra wide
          rw [Bool.not_eq_false] at wide
          rw [lowerType, if_pos wide] at isScalar
          exact nomatch isScalar
      | inr later => exact ih others type later

theorem checked_eq_ok {node : Lowered} {type : Option LoweredType} {lowered : Typed} :
    checked node type = .ok lowered ↔ lowered.node = node ∧ type = some lowered.type := by
  cases type with
  | none => exact ⟨nofun, nofun⟩
  | some type =>
      constructor
      · intro made
        cases made
        exact ⟨rfl, rfl⟩
      · obtain ⟨node', type'⟩ := lowered
        rintro ⟨rfl, same⟩
        cases same
        rfl

theorem shouldConvert_eq {node : Node} {type : ScalarType} (typed : typeOf node = some type) :
    shouldConvert node = is64 type := by
  rw [shouldConvert, typed, Option.any_some]

/-- The operators on a type that is not wide keep to narrow types, if they are given no other. -/
theorem narrow_of_checkTypePrimOp1 {op : PrimOpTag} {types : List ScalarType} {src dst : ScalarType}
    (checked : checkTypePrimOp1 op types src = some dst) (narrow : is64 src = false)
    (others : ∀ type ∈ types, is64 type = false) : is64 dst = false := by
  cases src with
  | bool =>
      simp only [checkTypePrimOp1] at checked
      split at checked
      · cases checked
        rfl
      · cases checked
  | int type =>
      simp only [checkTypePrimOp1] at checked
      split at checked <;>
        simp only [Option.ite_none_right_eq_some, Option.some.injEq, reduceCtorEq] at checked
      all_goals
        first
          | (rw [← checked]; exact narrow)
          | (rw [← checked.2]; exact narrow)
          | (rw [← checked.2]; exact others _ List.mem_cons_self)

/-- An integer is reinterpreted as one type, of an integer of the same width. -/
theorem reinterpret_of_checkType {types : List ScalarType} {srcType : IntType} {dst : ScalarType}
    (checked : checkTypePrimOp1 .reinterpret types (.int srcType) = some dst) :
    ∃ dstType, types = [.int dstType] ∧ isReinterpretCastLegal srcType dstType = true := by
  cases types with
  | nil => exact nomatch checked
  | cons head tail =>
      cases head with
      | bool => exact nomatch checked
      | int dstType =>
          cases tail with
          | cons next rest => exact nomatch checked
          | nil =>
              simp only [checkTypePrimOp1] at checked
              exact ⟨dstType, rfl, (Option.ite_none_right_eq_some.mp checked).1⟩

theorem type_of_checkTypePrimOp2 {op : PrimOpTag} {lhs rhs dst : ScalarType}
    (checked : checkTypePrimOp2 op lhs rhs = some dst) : dst = lhs ∨ dst = .bool := by
  cases op <;> simp only [checkTypePrimOp2] at checked <;> (try split at checked) <;> simp_all

/-- An addition always stops at the assertion on the instruction. -/
theorem lowerAdd_ne_ok (lhs rhs lowered : Typed) : lowerAdd lhs rhs ≠ .ok lowered := by
  intro added
  obtain ⟨_, halves, _⟩ := bind_eq_ok.mp added
  obtain ⟨half, _, halves⟩ := bind_eq_ok.mp halves
  obtain ⟨_, results, _⟩ := bind_eq_ok.mp halves
  obtain ⟨_, isMemory, _⟩ := bind_eq_ok.mp results
  exact nomatch isMemory

/-! ## Nodes -/

/-- What the rewriting of a node gives when it succeeds. -/
structure Lowers (node : Node) (type : ScalarType) (lowered : Typed) : Prop where
  handled : Handled node
  type : lowered.type = becomes node type
  no64 : lowered.node.no64 = true
  represents : ∀ env v, eval env node = some v → evalLowered env lowered.node = some (represent v)

theorem lowers_intLiteral (lit : IntLiteral) :
    Lowers (.intLiteral lit) (.int lit.type) (lowerLiteral lit) := by
  by_cases wide : lit.width = .intTy64
  · rw [lowerLiteral, if_pos wide]
    refine ⟨trivial, ?_, rfl, ?_⟩
    · rw [becomes_of_wide (is64_of_wide (show lit.type.width = .intTy64 from wide))]
      rfl
    · intro env v value
      cases value
      have word (x : BitVec 32) : BitVec.ofInt 32 (uint32Literal x).denotes = x := by
        apply BitVec.eq_of_toNat_eq
        have small := x.isLt
        have denotes : (uint32Literal x).denotes = (x.toNat : Int) := by
          simp only [IntLiteral.denotes, uint32Literal, intLiteralHelper, IntLiteral.type,
            IntType.wrap, reading, Bool.false_eq_true, if_false]
          change ((x.setWidth 64).toNat : Int) % 2 ^ 32 = x.toNat
          rw [BitVec.toNat_setWidth]
          omega
        rw [denotes, BitVec.toNat_ofInt]
        omega
      have whole : BitVec.ofInt 64 lit.value.toNat = lit.value := by
        apply BitVec.eq_of_toNat_eq
        rw [BitVec.toNat_ofInt]
        have small := lit.value.isLt
        omega
      rw [represent, if_pos (show lit.type.width = .intTy64 from wide), IntLiteral.denotes,
        halves_wrap (show lit.type.width = .intTy64 from wide), halves, whole]
      simp only [evalLowered, Option.bind_eq_bind, Option.bind_some, evalTuple, word]
  · rw [lowerLiteral, if_neg wide]
    refine ⟨trivial, ?_, ?_, ?_⟩
    · rw [becomes_of_narrow (is64_of_narrow (show lit.type.width ≠ .intTy64 from wide))]
    · rw [Lowered.no64, is64_of_narrow (show lit.type.width ≠ .intTy64 from wide)]
      rfl
    · intro env v value
      cases value
      rw [represent, if_neg (show ¬ lit.type.width = .intTy64 from wide)]
      rfl

theorem lowers_value (id : Nat) (type : ScalarType) :
    Lowers (.value id type) type (lowerValue id type) := by
  cases type with
  | bool =>
      refine ⟨trivial, rfl, rfl, ?_⟩
      intro env v value
      cases value
      rfl
  | int intType =>
      by_cases wide : intType.width = .intTy64
      · rw [lowerValue, if_pos wide]
        refine ⟨trivial, ?_, rfl, ?_⟩
        · rw [becomes_of_wide (is64_of_wide wide)]
          rfl
        · intro env v value
          cases value
          obtain ⟨width, isSigned⟩ := intType
          subst wide
          rfl
      · rw [lowerValue, if_neg wide]
        refine ⟨trivial, ?_, ?_, ?_⟩
        · rw [becomes_of_narrow (is64_of_narrow wide)]
        · rw [Lowered.no64, is64_of_narrow wide]
          rfl
        · intro env v value
          cases value
          rw [represent, if_neg wide]
          rfl

theorem lowers_primOp1 {op : PrimOpTag} {typeArguments : List ScalarType} {operand : Node}
    {src dst : ScalarType} {lowered result : Typed} (operandTyped : typeOf operand = some src)
    (typed : checkTypePrimOp1 op typeArguments src = some dst) (operandLowers : Lowers operand src lowered)
    (made : checked (.primOp1 op (typeArguments.map lowerType) lowered.node)
      (checkType1 op (typeArguments.map lowerType) lowered.type) = .ok result) :
    Lowers (.primOp1 op typeArguments operand) dst result := by
  obtain ⟨node, type⟩ := checked_eq_ok.mp made
  have converted := shouldConvert_eq operandTyped
  have no64 : result.node.no64 = true := by
    rw [node, Lowered.no64, operandLowers.no64, Bool.and_true, List.all_eq_true]
    intro argument member
    obtain ⟨original, _, rfl⟩ := List.mem_map.mp member
    exact no64_lowerType original
  cases wide : is64 src with
  | false =>
      rw [operandLowers.type, becomes_of_narrow wide, checkType1] at type
      obtain ⟨types, all, type⟩ := Option.bind_eq_some_iff.mp type
      have narrow := narrow_of_mapM_scalar? all
      rw [mapM_scalar? narrow] at all
      cases all
      rw [typed] at type
      have narrowResult := narrow_of_checkTypePrimOp1 typed wide narrow
      refine ⟨⟨operandLowers.handled, ?_⟩, ?_, no64, ?_⟩
      · rw [converted, wide, if_neg (by decide)]
        exact narrow
      · rw [becomes_of_narrow narrowResult]
        exact (Option.some.inj type).symm
      · intro env v value
        obtain ⟨x, operandValue, value⟩ := Option.bind_eq_some_iff.mp value
        obtain ⟨x', evaluated, hasType⟩ := eval_total env operand src operandTyped
        cases operandValue.symm.trans evaluated
        obtain ⟨v', step, resultTyped⟩ := evalPrimOp1_total op typeArguments src dst x hasType typed
        cases value.symm.trans step
        simp only [node, evalLowered, operandLowers.represents env x operandValue,
          Option.bind_eq_bind, Option.bind_some, represent_of_narrow hasType wide, evalLowered1,
          mapM_scalar? narrow, step, Option.map_some, represent_of_narrow resultTyped narrowResult]
  | true =>
      rw [operandLowers.type, becomes_of_wide wide] at type
      simp only [checkType1] at type
      split at type
      · rename_i arguments
        obtain ⟨dst', rfl, isPair⟩ := List.map_eq_singleton_iff.mp arguments
        have wideArgument : is64 dst' = true := by
          by_contra narrow
          rw [Bool.not_eq_true] at narrow
          rw [lowerType_of_narrow narrow] at isPair
          cases isPair
        rw [lowerType, if_pos wideArgument] at isPair
        cases isPair
        obtain ⟨same, type⟩ := Option.ite_none_right_eq_some.mp type
        rw [Bool.not_eq_true'] at same
        cases src with
        | bool => cases wide
        | int srcType =>
            cases dst' with
            | bool => cases wideArgument
            | int dstType =>
                simp only [checkTypePrimOp1, Option.ite_none_right_eq_some, Option.some.injEq] at typed
                obtain ⟨_, rfl⟩ := typed
                refine ⟨⟨operandLowers.handled, ?_⟩, ?_, no64, ?_⟩
                · rw [converted, wide, if_pos rfl]
                  exact ⟨rfl, same⟩
                · rw [becomes_of_wide wideArgument, ← Option.some.inj type, same]
                  rfl
                · intro env v value
                  obtain ⟨x, operandValue, value⟩ := Option.bind_eq_some_iff.mp value
                  obtain ⟨x', evaluated, hasType⟩ := eval_total env operand (.int srcType) operandTyped
                  cases operandValue.symm.trans evaluated
                  obtain ⟨z, rfl, _⟩ := Value.hasType_int hasType
                  cases value
                  have srcWide := of_decide_eq_true wide
                  have dstWide := of_decide_eq_true wideArgument
                  simp only [node, evalLowered, operandLowers.represents env _ operandValue,
                    Option.bind_eq_bind, Option.bind_some, represent, if_pos srcWide, evalLowered1,
                    if_true, if_pos dstWide, halves_wrap dstWide]
      · cases type

/-- A comparison of records takes two of one type. -/
theorem checkType2_pair {op : PrimOpTag} {lhs rhs : Bool} {type : LoweredType}
    (checked : checkType2 op (.pair lhs) (.pair rhs) = some type) :
    (op = .eq ∨ op = .neq) ∧ lhs = rhs ∧ type = .scalar .bool := by
  simp only [checkType2] at checked
  split at checked
  · obtain ⟨same, type⟩ := Option.ite_none_right_eq_some.mp checked
    exact ⟨Or.inl rfl, same, (Option.some.inj type).symm⟩
  · obtain ⟨same, type⟩ := Option.ite_none_right_eq_some.mp checked
    exact ⟨Or.inr rfl, same, (Option.some.inj type).symm⟩
  · exact nomatch checked

theorem typeOf_comparison {op : PrimOpTag} {lhs rhs dst : ScalarType} (isEquality : op = .eq ∨ op = .neq)
    (typed : checkTypePrimOp2 op lhs rhs = some dst) : lhs = rhs ∧ dst = .bool := by
  cases isEquality with
  | inl eq =>
      subst eq
      obtain ⟨same, result⟩ := Option.ite_none_right_eq_some.mp typed
      exact ⟨same, (Option.some.inj result).symm⟩
  | inr neq =>
      subst neq
      obtain ⟨same, result⟩ := Option.ite_none_right_eq_some.mp typed
      exact ⟨same, (Option.some.inj result).symm⟩

/-- Halves are compared as the integers are. -/
theorem evalLowered2_equality {op : PrimOpTag} (isEquality : op = .eq ∨ op = .neq) (env : Env)
    {type : IntType} (wide : type.width = .intTy64) {x y : Int} (xHolds : type.Holds x)
    (yHolds : type.Holds y) :
    evalLowered2 env op (.pair (halves x).1 (halves x).2) (.pair (halves y).1 (halves y).2) =
      (evalPrimOp2 env op (.int type x) (.int type y)).map .scalar := by
  have same : ((halves x).1 = (halves y).1 ∧ (halves x).2 = (halves y).2) ↔ x = y := by
    rw [← Prod.ext_iff]
    exact ⟨eq_of_halves wide xHolds yHolds, congrArg halves⟩
  cases isEquality with
  | inl eq =>
      subst eq
      simp only [evalLowered2, same]
      rfl
  | inr neq =>
      subst neq
      simp only [evalLowered2, same]
      rfl

theorem lowers_primOp2 {op : PrimOpTag} {lhs rhs : Node} {left right dst : ScalarType}
    {newLhs newRhs result : Typed} (lhsTyped : typeOf lhs = some left) (rhsTyped : typeOf rhs = some right)
    (typed : checkTypePrimOp2 op left right = some dst) (lhsLowers : Lowers lhs left newLhs)
    (rhsLowers : Lowers rhs right newRhs)
    (made : checked (.primOp2 op newLhs.node newRhs.node) (checkType2 op newLhs.type newRhs.type) =
      .ok result) :
    Lowers (.primOp2 op lhs rhs) dst result := by
  obtain ⟨node, type⟩ := checked_eq_ok.mp made
  have leftConverted := shouldConvert_eq lhsTyped
  have rightConverted := shouldConvert_eq rhsTyped
  have no64 : result.node.no64 = true := by
    rw [node, Lowered.no64, lhsLowers.no64, rhsLowers.no64]
    rfl
  have values : ∀ env v, eval env (.primOp2 op lhs rhs) = some v → ∃ x y,
      eval env lhs = some x ∧ eval env rhs = some y ∧ x.HasType left ∧ y.HasType right ∧
        evalPrimOp2 env op x y = some v ∧ v.HasType dst := by
    intro env v value
    obtain ⟨x, lhsValue, value⟩ := Option.bind_eq_some_iff.mp value
    obtain ⟨y, rhsValue, value⟩ := Option.bind_eq_some_iff.mp value
    obtain ⟨x', lhsEvaluated, xTyped⟩ := eval_total env lhs left lhsTyped
    obtain ⟨y', rhsEvaluated, yTyped⟩ := eval_total env rhs right rhsTyped
    cases lhsValue.symm.trans lhsEvaluated
    cases rhsValue.symm.trans rhsEvaluated
    obtain ⟨v', step, resultTyped⟩ := evalPrimOp2_total env op left right dst x y xTyped yTyped typed
    cases value.symm.trans step
    exact ⟨x, y, lhsValue, rhsValue, xTyped, yTyped, step, resultTyped⟩
  rw [lhsLowers.type, rhsLowers.type] at type
  cases leftWide : is64 left with
  | false =>
      cases rightWide : is64 right with
      | false =>
          rw [becomes_of_narrow leftWide, becomes_of_narrow rightWide, checkType2, typed] at type
          have narrowResult : is64 dst = false := by
            cases type_of_checkTypePrimOp2 typed with
            | inl same => exact same ▸ leftWide
            | inr isBool => exact isBool ▸ rfl
          refine ⟨⟨lhsLowers.handled, rhsLowers.handled, Or.inl ⟨leftConverted.trans leftWide,
            rightConverted.trans rightWide⟩⟩, ?_, no64, ?_⟩
          · rw [becomes_of_narrow narrowResult]
            exact (Option.some.inj type).symm
          · intro env v value
            obtain ⟨x, y, lhsValue, rhsValue, xTyped, yTyped, step, resultTyped⟩ := values env v value
            simp only [node, evalLowered, lhsLowers.represents env x lhsValue,
              rhsLowers.represents env y rhsValue, Option.bind_eq_bind, Option.bind_some,
              represent_of_narrow xTyped leftWide, represent_of_narrow yTyped rightWide, evalLowered2,
              step, Option.map_some, represent_of_narrow resultTyped narrowResult]
      | true =>
          rw [becomes_of_narrow leftWide, becomes_of_wide rightWide] at type
          exact nomatch type
  | true =>
      cases rightWide : is64 right with
      | false =>
          rw [becomes_of_wide leftWide, becomes_of_narrow rightWide] at type
          exact nomatch type
      | true =>
          rw [becomes_of_wide leftWide, becomes_of_wide rightWide] at type
          obtain ⟨isEquality, alike, isBool⟩ := checkType2_pair type
          obtain ⟨rfl, rfl⟩ := typeOf_comparison isEquality typed
          refine ⟨⟨lhsLowers.handled, rhsLowers.handled, Or.inr ⟨isEquality, Bool.not_inj alike⟩⟩,
            isBool, no64, ?_⟩
          intro env v value
          obtain ⟨x, y, lhsValue, rhsValue, xTyped, yTyped, step, resultTyped⟩ := values env v value
          obtain ⟨intType, z, rfl, wide, zHolds, rfl, lhsPair⟩ := represent_of_wide xTyped leftWide
          obtain ⟨z', rfl, zHolds'⟩ := Value.hasType_int yTyped
          have rhsPair : represent (.int intType z') = .pair (halves z').1 (halves z').2 := if_pos wide
          simp only [node, evalLowered, lhsLowers.represents env _ lhsValue,
            rhsLowers.represents env _ rhsValue, Option.bind_eq_bind, Option.bind_some, lhsPair,
            rhsPair, evalLowered2_equality isEquality env wide zHolds zHolds', step, Option.map_some,
            represent_of_narrow resultTyped rfl]

theorem lowers_primOp3 {op : PrimOpTag} {first second third : Node} {a b c dst : ScalarType}
    {newFirst newSecond newThird result : Typed} (firstTyped : typeOf first = some a)
    (secondTyped : typeOf second = some b) (thirdTyped : typeOf third = some c)
    (typed : checkTypePrimOp3 op a b c = some dst) (firstLowers : Lowers first a newFirst)
    (secondLowers : Lowers second b newSecond) (thirdLowers : Lowers third c newThird)
    (made : checked (.primOp3 op newFirst.node newSecond.node newThird.node)
      (checkType3 op newFirst.type newSecond.type newThird.type) = .ok result) :
    Lowers (.primOp3 op first second third) dst result := by
  obtain ⟨node, type⟩ := checked_eq_ok.mp made
  obtain ⟨rfl, rfl, rfl, rfl⟩ : op = .select ∧ a = .bool ∧ b = c ∧ b = dst := by
    simp only [checkTypePrimOp3] at typed
    split at typed
    · obtain ⟨same, result⟩ := Option.ite_none_right_eq_some.mp typed
      exact ⟨rfl, rfl, same, Option.some.inj result⟩
    · exact nomatch typed
  rw [firstLowers.type, secondLowers.type, thirdLowers.type, becomes_of_narrow rfl, checkType3] at type
  obtain ⟨alike, type⟩ := Option.ite_none_right_eq_some.mp type
  have no64 : result.node.no64 = true := by
    rw [node, Lowered.no64, firstLowers.no64, secondLowers.no64, thirdLowers.no64]
    rfl
  refine ⟨⟨firstLowers.handled, secondLowers.handled, thirdLowers.handled, ?_⟩, ?_, no64, ?_⟩
  · rw [shouldConvert_eq secondTyped]
    cases wide : is64 b with
    | false => exact Or.inl rfl
    | true =>
        rw [becomes_of_wide wide, becomes_of_wide wide] at alike
        exact Or.inr (Bool.not_inj (LoweredType.pair.inj alike))
  · rw [← Option.some.inj type]
    rfl
  · intro env v value
    obtain ⟨condition, firstValue, value⟩ := Option.bind_eq_some_iff.mp value
    obtain ⟨x, secondValue, value⟩ := Option.bind_eq_some_iff.mp value
    obtain ⟨y, thirdValue, value⟩ := Option.bind_eq_some_iff.mp value
    obtain ⟨condition', evaluated, conditionTyped⟩ := eval_total env first .bool firstTyped
    cases firstValue.symm.trans evaluated
    obtain ⟨holds, rfl⟩ := Value.hasType_bool conditionTyped
    cases value
    simp only [node, evalLowered, firstLowers.represents env _ firstValue,
      secondLowers.represents env _ secondValue, thirdLowers.represents env _ thirdValue,
      Option.bind_eq_bind, Option.bind_some, represent, evalLowered3, if_true]
    cases holds <;> rfl

theorem lowers_constantRef {definition : Node} {type : ScalarType} {value result : Typed}
    (typed : typeOf definition = some type) (definitionLowers : Lowers definition type value)
    (made : checked (.constantRef value.node) ((typeOf definition).map lowerType) = .ok result) :
    Lowers (.constantRef definition) type result := by
  obtain ⟨node, isType⟩ := checked_eq_ok.mp made
  rw [typed, Option.map_some] at isType
  refine ⟨definitionLowers.handled, ?_, ?_, ?_⟩
  · rw [becomes_eq_lowerType rfl]
    exact (Option.some.inj isType).symm
  · rw [node]
    exact definitionLowers.no64
  · intro env v evaluated
    rw [node]
    exact definitionLowers.represents env v evaluated

/-- Where the rewriting of a node succeeds, it is exact. -/
theorem process_lowers (node : Node) : ∀ {type : ScalarType} {lowered : Typed},
    typeOf node = some type → process node = .ok lowered → Lowers node type lowered := by
  induction node with
  | intLiteral lit =>
      intro type lowered typed processed
      cases typed
      cases processed
      exact lowers_intLiteral lit
  | boolLiteral b =>
      intro type lowered typed processed
      cases typed
      cases processed
      exact ⟨trivial, rfl, rfl, fun env v value => by cases value; rfl⟩
  | value id declared =>
      intro type lowered typed processed
      cases typed
      cases processed
      exact lowers_value id declared
  | constantRef definition ih =>
      intro type lowered typed processed
      obtain ⟨value, inner, made⟩ := bind_eq_ok.mp processed
      exact lowers_constantRef typed (ih typed inner) made
  | primOp1 op typeArguments operand ih =>
      intro type lowered typed processed
      obtain ⟨src, operandTyped, typed⟩ := Option.bind_eq_some_iff.mp typed
      obtain ⟨newOperand, inner, made⟩ := bind_eq_ok.mp processed
      exact lowers_primOp1 operandTyped typed (ih operandTyped inner) made
  | primOp2 op lhs rhs lhsInduction rhsInduction =>
      intro type lowered typed processed
      obtain ⟨left, lhsTyped, typed⟩ := Option.bind_eq_some_iff.mp typed
      obtain ⟨right, rhsTyped, typed⟩ := Option.bind_eq_some_iff.mp typed
      obtain ⟨newLhs, lhsProcessed, processed⟩ := bind_eq_ok.mp processed
      obtain ⟨newRhs, rhsProcessed, made⟩ := bind_eq_ok.mp processed
      by_cases isAdd : op = .add ∧ shouldConvert lhs = true
      · rw [if_pos isAdd] at made
        exact absurd made (lowerAdd_ne_ok _ _ _)
      · rw [if_neg isAdd] at made
        exact lowers_primOp2 lhsTyped rhsTyped typed (lhsInduction lhsTyped lhsProcessed)
          (rhsInduction rhsTyped rhsProcessed) made
  | primOp3 op first second third firstInduction secondInduction thirdInduction =>
      intro type lowered typed processed
      obtain ⟨a, firstTyped, typed⟩ := Option.bind_eq_some_iff.mp typed
      obtain ⟨b, secondTyped, typed⟩ := Option.bind_eq_some_iff.mp typed
      obtain ⟨c, thirdTyped, typed⟩ := Option.bind_eq_some_iff.mp typed
      obtain ⟨newFirst, firstProcessed, processed⟩ := bind_eq_ok.mp processed
      obtain ⟨newSecond, secondProcessed, processed⟩ := bind_eq_ok.mp processed
      obtain ⟨newThird, thirdProcessed, made⟩ := bind_eq_ok.mp processed
      exact lowers_primOp3 firstTyped secondTyped thirdTyped typed
        (firstInduction firstTyped firstProcessed) (secondInduction secondTyped secondProcessed)
        (thirdInduction thirdTyped thirdProcessed) made

/-- A handled node is rewritten. -/
theorem process_succeeds (node : Node) : ∀ {type : ScalarType}, typeOf node = some type →
    Handled node → ∃ lowered, process node = .ok lowered := by
  induction node with
  | intLiteral lit => exact fun _ _ => ⟨_, rfl⟩
  | boolLiteral b => exact fun _ _ => ⟨_, rfl⟩
  | value id declared => exact fun _ _ => ⟨_, rfl⟩
  | constantRef definition ih =>
      intro type typed handled
      obtain ⟨value, inner⟩ := ih typed handled
      refine ⟨⟨.constantRef value.node, lowerType type⟩, bind_eq_ok.mpr ⟨value, inner, ?_⟩⟩
      rw [show typeOf definition = some type from typed]
      rfl
  | primOp1 op typeArguments operand ih =>
      intro type typed handled
      obtain ⟨src, operandTyped, typed⟩ := Option.bind_eq_some_iff.mp typed
      obtain ⟨operandHandled, condition⟩ := handled
      obtain ⟨newOperand, inner⟩ := ih operandTyped operandHandled
      have lowers := process_lowers operand operandTyped inner
      rw [shouldConvert_eq operandTyped] at condition
      refine Exists.imp (fun result made => bind_eq_ok.mpr ⟨newOperand, inner, made⟩) ?_
      cases wide : is64 src with
      | false =>
          rw [wide, if_neg (by decide)] at condition
          rw [lowers.type, becomes_of_narrow wide, checkType1, mapM_scalar? condition,
            Option.bind_some, typed]
          exact ⟨_, rfl⟩
      | true =>
          rw [wide, if_pos rfl] at condition
          obtain ⟨rfl, other⟩ := condition
          cases src with
          | bool => cases wide
          | int srcType =>
              obtain ⟨dstType, rfl, legal⟩ := reinterpret_of_checkType typed
              have wideArgument : is64 (.int dstType) = true := by
                simp only [isReinterpretCastLegal, beq_iff_eq] at legal
                exact is64_of_wide ((eq_comm.mp legal).trans (of_decide_eq_true wide))
              rw [lowers.type, becomes_of_wide wide, other, List.map_singleton, lowerType,
                if_pos wideArgument]
              exact ⟨_, rfl⟩
  | primOp2 op lhs rhs lhsInduction rhsInduction =>
      intro type typed handled
      obtain ⟨left, lhsTyped, typed⟩ := Option.bind_eq_some_iff.mp typed
      obtain ⟨right, rhsTyped, typed⟩ := Option.bind_eq_some_iff.mp typed
      obtain ⟨lhsHandled, rhsHandled, condition⟩ := handled
      obtain ⟨newLhs, lhsProcessed⟩ := lhsInduction lhsTyped lhsHandled
      obtain ⟨newRhs, rhsProcessed⟩ := rhsInduction rhsTyped rhsHandled
      have lhsLowers := process_lowers lhs lhsTyped lhsProcessed
      have rhsLowers := process_lowers rhs rhsTyped rhsProcessed
      refine Exists.imp (fun result made => bind_eq_ok.mpr ⟨newLhs, lhsProcessed,
        bind_eq_ok.mpr ⟨newRhs, rhsProcessed, made⟩⟩) ?_
      rw [shouldConvert_eq lhsTyped, shouldConvert_eq rhsTyped] at condition
      cases condition with
      | inl narrow =>
          rw [if_neg (by rw [shouldConvert_eq lhsTyped, narrow.1]; simp), lhsLowers.type,
            rhsLowers.type, becomes_of_narrow narrow.1, becomes_of_narrow narrow.2, checkType2, typed]
          exact ⟨_, rfl⟩
      | inr equality =>
          obtain ⟨isEquality, alike⟩ := equality
          obtain ⟨rfl, rfl⟩ := typeOf_comparison isEquality typed
          have notAdd : op ≠ .add := by
            cases isEquality with
            | inl eq => rw [eq]; decide
            | inr neq => rw [neq]; decide
          rw [if_neg (fun isAdd => notAdd isAdd.1), lhsLowers.type, rhsLowers.type]
          cases wide : is64 left with
          | false =>
              rw [becomes_of_narrow wide, becomes_of_narrow wide, checkType2, typed]
              exact ⟨_, rfl⟩
          | true =>
              rw [becomes_of_wide wide, becomes_of_wide wide, alike]
              cases isEquality with
              | inl eq => exact ⟨_, by rw [eq, checkType2, if_pos rfl]; rfl⟩
              | inr neq => exact ⟨_, by rw [neq, checkType2, if_pos rfl]; rfl⟩
  | primOp3 op first second third firstInduction secondInduction thirdInduction =>
      intro type typed handled
      obtain ⟨a, firstTyped, typed⟩ := Option.bind_eq_some_iff.mp typed
      obtain ⟨b, secondTyped, typed⟩ := Option.bind_eq_some_iff.mp typed
      obtain ⟨c, thirdTyped, typed⟩ := Option.bind_eq_some_iff.mp typed
      obtain ⟨firstHandled, secondHandled, thirdHandled, condition⟩ := handled
      obtain ⟨newFirst, firstProcessed⟩ := firstInduction firstTyped firstHandled
      obtain ⟨newSecond, secondProcessed⟩ := secondInduction secondTyped secondHandled
      obtain ⟨newThird, thirdProcessed⟩ := thirdInduction thirdTyped thirdHandled
      refine Exists.imp (fun result made => bind_eq_ok.mpr ⟨newFirst, firstProcessed,
        bind_eq_ok.mpr ⟨newSecond, secondProcessed, bind_eq_ok.mpr ⟨newThird, thirdProcessed, made⟩⟩⟩) ?_
      simp only [checkTypePrimOp3] at typed
      split at typed
      · obtain ⟨rfl, _⟩ := Option.ite_none_right_eq_some.mp typed
        rw [(process_lowers first firstTyped firstProcessed).type,
          (process_lowers second secondTyped secondProcessed).type,
          (process_lowers third thirdTyped thirdProcessed).type, becomes_of_narrow rfl, checkType3]
        rw [shouldConvert_eq secondTyped] at condition
        have alike : becomes second b = becomes third b := by
          cases wide : is64 b with
          | false => rw [becomes_of_narrow wide, becomes_of_narrow wide]
          | true =>
              rw [wide] at condition
              rw [becomes_of_wide wide, becomes_of_wide wide,
                condition.resolve_left (fun narrow => by cases narrow)]
        rw [if_pos alike]
        exact ⟨_, rfl⟩
      · cases typed

/-- A node is emulated completely and exactly if and only if it is handled. -/
theorem lowerInt64_exact (node : Node) (type : ScalarType) (typed : typeOf node = some type) :
    Emulated node ↔ Handled node := by
  constructor
  · intro ⟨lowered, processed, _⟩
    exact (process_lowers node typed processed).handled
  · intro handled
    obtain ⟨lowered, processed⟩ := process_succeeds node typed handled
    have lowers := process_lowers node typed processed
    refine ⟨lowered, processed, lowers.no64, ?_, lowers.represents⟩
    rw [lowers.type]
    exact no64_becomes node type

/-! The sum of two 64-bit integers. -/

def sum64 : Node := .primOp2 .add (.value 0 (.int ⟨.intTy64, false⟩)) (.value 1 (.int ⟨.intTy64, false⟩))

theorem lowerInt64_sum64 : Emulated sum64 ↔ Handled sum64 :=
  lowerInt64_exact sum64 (.int ⟨.intTy64, false⟩) rfl

theorem lowerInt64_add :
    process sum64 = .error (.assertion "is_mem(instruction)") ∧ ¬ Emulated sum64 := by
  have stops : process sum64 = .error (.assertion "is_mem(instruction)") := rfl
  refine ⟨stops, ?_⟩
  intro ⟨lowered, processed, _⟩
  rw [stops] at processed
  exact nomatch processed

end Shady.LowerInt64
