import Shady.FoldPtrPlaces
import Shady.Library.Fallible

/-!
# Which pointer operands are folded soundly

The types along a chain of casts decide whether the cast that is rebuilt passes the checks, and
with the places that the pointers denote, whether the fold is sound.
-/

set_option autoImplicit false

namespace Shady
open Fallible

/-! ## What passes the checks -/

section Checks
variable {config : TypesConfig}

theorem ensure_ok {condition : Bool} {text : String} {u : Unit} : ensure condition text = .ok u ↔ condition = true := by
  cases condition <;> simp [ensure]

theorem deconstructQualifiedType_ok {type : IrType} {pair : Bool × IrType} :
    type.deconstructQualifiedType = .ok pair ↔ type = .qualified pair.1 pair.2 := by
  obtain ⟨isUniform, inner⟩ := pair
  cases type <;> simp [IrType.deconstructQualifiedType]

theorem deconstructPtr_ok {type : IrType} {parts : Bool × IrType × AddressSpace × Bool} :
    deconstructPtr type = .ok parts ↔ type = .qualified parts.1 (.ptr parts.2.1 parts.2.2.1 parts.2.2.2) := by
  obtain ⟨isUniform, pointed, space, isReference⟩ := parts
  constructor
  · intro ok
    obtain ⟨pair, qualified, ok⟩ := bind_eq_ok.mp ok
    rw [deconstructQualifiedType_ok.mp qualified]
    cases inner : pair.2 with
    | ptr pointed' space' isReference' =>
        simp only [inner] at ok
        cases pure_eq_ok.mp ok
        rfl
    | _ =>
        simp only [inner] at ok
        cases ok
  · rintro rfl
    rfl

theorem qualifiedType_ok {isUniform : Bool} {type qualified : IrType} :
    qualifiedType config isUniform type = .ok qualified ↔
      type.isDataType = true ∧ (config.isSimt || isUniform) = true ∧ qualified = .qualified isUniform type := by
  constructor
  · intro ok
    obtain ⟨_, isData, ok⟩ := bind_eq_ok.mp ok
    obtain ⟨_, varying, ok⟩ := bind_eq_ok.mp ok
    exact ⟨ensure_ok.mp isData, ensure_ok.mp varying, (pure_eq_ok.mp ok).symm⟩
  · intro ok
    obtain ⟨isData, varying, rfl⟩ := ok
    exact bind_eq_ok.mpr ⟨(), ensure_ok.mpr isData, bind_eq_ok.mpr ⟨(), ensure_ok.mpr varying, rfl⟩⟩

theorem checkCast_ok {isLegal : IrType → IrType → Except CheckError Bool} {dst operandType type : IrType} :
    checkCast config isLegal dst operandType = .ok type ↔
      ∃ isUniform src, operandType = .qualified isUniform src ∧ dst.isDataType = true ∧ isLegal src dst = .ok true ∧ (config.isSimt || isUniform) = true ∧
        type = .qualified isUniform dst := by
  constructor
  · intro ok
    obtain ⟨pair, qualified, ok⟩ := bind_eq_ok.mp ok
    obtain ⟨_, isData, ok⟩ := bind_eq_ok.mp ok
    obtain ⟨legal, isOk, ok⟩ := bind_eq_ok.mp ok
    obtain ⟨_, holds, ok⟩ := bind_eq_ok.mp ok
    obtain rfl : legal = true := ensure_ok.mp holds
    obtain ⟨-, varying, rfl⟩ := qualifiedType_ok.mp ok
    exact ⟨pair.1, pair.2, deconstructQualifiedType_ok.mp qualified, ensure_ok.mp isData, isOk, varying, rfl⟩
  · intro parts
    obtain ⟨isUniform, src, rfl, isData, isOk, varying, rfl⟩ := parts
    refine bind_eq_ok.mpr ⟨(isUniform, src), rfl, bind_eq_ok.mpr ⟨(), ?_, ?_⟩⟩
    · exact ensure_ok.mpr isData
    · exact bind_eq_ok.mpr ⟨true, isOk, bind_eq_ok.mpr ⟨(), ensure_ok.mpr rfl, qualifiedType_ok.mpr ⟨isData, varying, rfl⟩⟩⟩

/-- Types that are cast to others: numbers, masks, and pointers that are no references. -/
def IrType.isCastable (type : IrType) : Bool :=
  type.isArithmType || decide (type = .maskType) || type.isPhysicalPtrType

theorem isDataType_of_isCastable {type : IrType} (castable : type.isCastable = true) : type.isDataType = true := by
  cases type <;> simp_all [IrType.isCastable, IrType.isArithmType, IrType.isPhysicalPtrType, IrType.isDataType]

/-- The cast does not cross between generic and specific pointers. -/
def SameGenericity (src dst : IrType) : Prop :=
  src.isPhysicalPtrType = true → dst.isPhysicalPtrType = true → src.isGenericPtrType = dst.isGenericPtrType

theorem isReinterpretCastLegal_ok {src dst : IrType} (other : src ≠ dst) :
    src.isReinterpretCastLegal config dst = .ok true ↔
      src.isCastable = true ∧ dst.isCastable = true ∧ src.bitwidth config = dst.bitwidth config ∧ SameGenericity src dst := by
  unfold IrType.isReinterpretCastLegal
  rw [if_neg other]
  have crossing : (!((src.isPhysicalPtrType && dst.isPhysicalPtrType) && (src.isGenericPtrType != dst.isGenericPtrType))) = true ↔
      SameGenericity src dst := by
    unfold SameGenericity
    cases src.isPhysicalPtrType <;> cases dst.isPhysicalPtrType <;> simp
  constructor
  · intro ok
    obtain ⟨_, -, ok⟩ := bind_eq_ok.mp ok
    split_ifs at ok with srcCast dstCast
    · cases pure_eq_ok.mp ok
    · cases pure_eq_ok.mp ok
    · obtain ⟨_, width, ok⟩ := bind_eq_ok.mp ok
      rw [Bool.not_eq_true', Bool.not_eq_false] at srcCast dstCast
      exact ⟨srcCast, dstCast, of_decide_eq_true (ensure_ok.mp width), crossing.mp (pure_eq_ok.mp ok)⟩
  · intro parts
    obtain ⟨srcCast, dstCast, width, same⟩ := parts
    refine bind_eq_ok.mpr ⟨(), ensure_ok.mpr ?_, ?_⟩
    · rw [isDataType_of_isCastable srcCast, isDataType_of_isCastable dstCast]
      rfl
    · change (src.isArithmType || decide (src = .maskType) || src.isPhysicalPtrType) = true at srcCast
      change (dst.isArithmType || decide (dst = .maskType) || dst.isPhysicalPtrType) = true at dstCast
      rw [srcCast, dstCast, crossing.mpr same]
      exact bind_eq_ok.mpr ⟨(), ensure_ok.mpr (decide_eq_true width), rfl⟩

theorem isConversionLegal_ok {src pointed : IrType} {space : AddressSpace} {isReference : Bool}
    (legal : src.isConversionLegal config (.ptr pointed space isReference) = .ok true) :
    ∃ srcSpace, src = .ptr pointed srcSpace false ∧ isReference = false ∧
      src.bitwidth config = (IrType.ptr pointed space isReference).bitwidth config ∧
      ¬ (srcSpace = .generic ∧ space = .generic) := by
  obtain ⟨_, -, legal⟩ := bind_eq_ok.mp legal
  dsimp only at legal
  split_ifs at legal with srcCast dstCast physical generic sign
  · cases pure_eq_ok.mp legal
  · cases pure_eq_ok.mp legal
  · cases pure_eq_ok.mp legal
  · cases pure_eq_ok.mp legal
  · cases pure_eq_ok.mp legal
  · have same := pure_eq_ok.mp legal
    have parts : isReference = false ∧ src.bitwidth config = (IrType.ptr pointed space isReference).bitwidth config := by
      simpa [IrType.isArithmType, IrType.isPhysicalPtrType] using dstCast
    obtain ⟨rfl, width⟩ := parts
    cases src with
    | ptr srcPointed srcSpace srcReference =>
        cases srcReference with
        | true => simp [IrType.isPhysicalPtrType] at physical
        | false =>
            have pointedSame : srcPointed = pointed := by
              simpa [IrType.isPhysicalPtrType, IrType.samePointedType] using same
            rw [pointedSame] at width ⊢
            exact ⟨srcSpace, rfl, rfl, width, by simpa [IrType.isGenericPtrType] using generic⟩
    | _ => simp [IrType.isPhysicalPtrType] at physical

end Checks

/-! ## The types along a chain -/

section Chains
variable {config : TypesConfig}

theorem plainSource_stops (ptr : PtrNode) : plainSource (plainSource ptr).1 = ((plainSource ptr).1, 0) := by
  induction ptr with
  | reinterpretOp dst operand ih => exact ih
  | ptrCompositeElement ptr index ih =>
      by_cases zero : index.isZero = true
      · rw [plainSource, if_pos zero]
        exact ih
      · rw [plainSource, if_neg zero, plainSource, if_neg zero]
  | _ => rfl

theorem checkPtrCompositeElement_ok {ptrType type : IrType} {index : Selector} :
    checkPtrCompositeElement config ptrType index = .ok type ↔
      ∃ isUniform pointed space isReference element, ptrType = .qualified isUniform (.ptr pointed space isReference) ∧
        pointed.enterCompositeType index = .ok element ∧ (config.isSimt || (isUniform && index.isUniform)) = true ∧
        type = .qualified (isUniform && index.isUniform) (.ptr element space isReference) := by
  constructor
  · intro ok
    obtain ⟨parts, qualified, ok⟩ := bind_eq_ok.mp ok
    obtain ⟨element, entered, ok⟩ := bind_eq_ok.mp ok
    obtain ⟨-, varying, rfl⟩ := qualifiedType_ok.mp ok
    exact ⟨_, _, _, _, element, deconstructPtr_ok.mp qualified, entered, varying, rfl⟩
  · intro parts
    obtain ⟨isUniform, pointed, space, isReference, element, rfl, entered, varying, rfl⟩ := parts
    exact bind_eq_ok.mpr ⟨(isUniform, pointed, space, isReference), rfl,
      bind_eq_ok.mpr ⟨element, entered, qualifiedType_ok.mpr ⟨rfl, varying, rfl⟩⟩⟩

/-- The source in front of which reinterpretations and first elements stand has a type that is
    cast, of the same width. -/
theorem plainSource_typed (ptr : PtrNode) : ∀ isUniform type, checkType config ptr = .ok (.qualified isUniform type) →
    type.isCastable = true → ∃ isUniform' type', checkType config (plainSource ptr).1 = .ok (.qualified isUniform' type') ∧
      (isUniform = true → isUniform' = true) ∧ type'.isCastable = true ∧ type'.bitwidth config = type.bitwidth config := by
  induction ptr with
  | reinterpretOp dst operand ih =>
      intro isUniform type typed castable
      obtain ⟨operandType, typedOperand, cast⟩ := bind_eq_ok.mp typed
      obtain ⟨_, src, rfl, -, legal, -, same⟩ := checkCast_ok.mp cast
      cases same
      by_cases identity : src = dst
      · exact ih isUniform dst (identity ▸ typedOperand) castable
      · obtain ⟨srcCastable, -, width, -⟩ := (isReinterpretCastLegal_ok identity).mp legal
        obtain ⟨isUniform', type', typedSource, uniform, castable', width'⟩ := ih isUniform src typedOperand srcCastable
        exact ⟨isUniform', type', typedSource, uniform, castable', width'.trans width⟩
  | ptrCompositeElement ptr index ih =>
      intro isUniform type typed castable
      by_cases zero : index.isZero = true
      · rw [plainSource, if_pos zero]
        obtain ⟨ptrType, typedPtr, isElement⟩ := bind_eq_ok.mp typed
        obtain ⟨baseUniform, pointed, space, isReference, element, rfl, -, -, same⟩ :=
          checkPtrCompositeElement_ok.mp isElement
        cases same
        obtain ⟨isUniform', type', typedSource, uniform, castable', width⟩ := ih baseUniform _ typedPtr castable
        refine ⟨isUniform', type', typedSource, fun both => uniform ?_, castable', width⟩
        exact (Bool.and_eq_true_iff.mp both).1
      · rw [plainSource, if_neg zero]
        exact ⟨isUniform, type, typed, id, castable, rfl⟩
  | _ => exact fun isUniform type typed castable => ⟨isUniform, type, typed, id, castable, rfl⟩

theorem ptrConversion_eq {node operand : PtrNode} {space : AddressSpace}
    (conversion : ptrConversion node = some (space, operand)) :
    ∃ pointed isReference, node = .convertOp (.ptr pointed space isReference) operand := by
  cases node with
  | convertOp dst operand' =>
      cases dst with
      | ptr pointed space' isReference =>
          cases conversion
          exact ⟨pointed, isReference, rfl⟩
      | _ => cases conversion
  | _ => cases conversion

theorem ptrSpace_of_typed {node : PtrNode} {isUniform isReference : Bool} {pointed : IrType} {space : AddressSpace}
    (typed : checkType config node = .ok (.qualified isUniform (.ptr pointed space isReference))) :
    ptrSpace config node = some space := by
  rw [ptrSpace, typed]

theorem pointedType_of_typed {node : PtrNode} {isUniform isReference : Bool} {pointed : IrType} {space : AddressSpace}
    (typed : checkType config node = .ok (.qualified isUniform (.ptr pointed space isReference))) :
    pointedType config node = some pointed := by
  rw [pointedType, typed]

/-- What the type of a pointer says about the source of its chain. -/
theorem ptrChain_typed {ptr : PtrNode} {isUniform : Bool} {pointed : IrType} {accessed : AddressSpace} {chain : PtrChain}
    (typed : checkType config ptr = .ok (.qualified isUniform (.ptr pointed accessed false)))
    (isChain : ptrChain config ptr = some chain) :
    ∃ isUniform' type', checkType config chain.source = .ok (.qualified isUniform' type') ∧
      (isUniform = true → isUniform' = true) ∧ type'.isCastable = true ∧
      type'.bitwidth config = (IrType.ptr pointed (chain.srcAs accessed) false).bitwidth config ∧
      (IrType.ptr pointed (chain.srcAs accessed) false).bitwidth config = (IrType.ptr pointed accessed false).bitwidth config ∧
      chain.conversion ≠ some (.generic, .generic) ∧ plainSource chain.source = (chain.source, 0) ∧
      ptrConversion chain.source = none := by
  obtain ⟨isUniform', type', typedSource, uniform, castable, width⟩ := plainSource_typed ptr _ _ typed rfl
  unfold ptrChain at isChain
  cases conversion : ptrConversion (plainSource ptr).1 with
  | none =>
      rw [conversion] at isChain
      cases isChain
      exact ⟨isUniform', type', typedSource, uniform, castable, width, rfl, nofun, plainSource_stops ptr, conversion⟩
  | some found =>
      obtain ⟨dst, operand⟩ := found
      simp only [conversion] at isChain
      cases again : ptrConversion (plainSource operand).1 with
      | some _ =>
          rw [again] at isChain
          cases isChain
      | none =>
          simp only [again] at isChain
          obtain ⟨src, isSpace, rfl⟩ := Option.map_eq_some_iff.mp isChain
          obtain ⟨dstPointed, isReference, same⟩ := ptrConversion_eq conversion
          rw [same] at typedSource
          obtain ⟨operandType, typedOperand, cast⟩ := bind_eq_ok.mp typedSource
          obtain ⟨_, srcType, rfl, -, legal, -, sameType⟩ := checkCast_ok.mp cast
          cases sameType
          obtain ⟨srcSpace, rfl, rfl, width', crossing⟩ := isConversionLegal_ok legal
          rw [ptrSpace_of_typed typedOperand] at isSpace
          cases isSpace
          obtain ⟨isUniform'', type'', typedSource'', uniform', castable', width''⟩ :=
            plainSource_typed operand _ _ typedOperand rfl
          refine ⟨isUniform'', type'', typedSource'', fun isTrue => uniform' (uniform isTrue), castable', width'', ?_, ?_,
            plainSource_stops operand, again⟩
          · exact width'.trans width
          · intro bothGeneric
            cases bothGeneric
            exact crossing ⟨rfl, rfl⟩

/-! ## The walk -/

theorem walkPtr_plain (ptr : PtrNode) : ∀ distance specializeGeneric srcAs,
    walkPtr config ptr distance specializeGeneric srcAs =
      walkPtr config (plainSource ptr).1 (distance + (plainSource ptr).2) specializeGeneric srcAs := by
  induction ptr with
  | reinterpretOp dst operand ih =>
      intro distance specializeGeneric srcAs
      rw [walkPtr, ih, plainSource, Nat.add_right_comm, Nat.add_assoc]
  | ptrCompositeElement ptr index ih =>
      intro distance specializeGeneric srcAs
      by_cases zero : index.isZero = true
      · rw [walkPtr, if_pos zero, ih, plainSource, if_pos zero, Nat.add_right_comm, Nat.add_assoc]
      · rw [plainSource, if_neg zero, Nat.add_zero]
  | _ => exact fun _ _ _ => rfl

theorem walkPtr_stop {source : PtrNode} (stops : plainSource source = (source, 0)) (noConversion : ptrConversion source = none)
    (distance : Nat) (specializeGeneric : Bool) (srcAs : AddressSpace) :
    walkPtr config source distance specializeGeneric srcAs = .ok ⟨source, distance, specializeGeneric, srcAs⟩ := by
  cases source with
  | reinterpretOp dst operand =>
      have count := congrArg Prod.snd stops
      cases count
  | ptrCompositeElement ptr index =>
      by_cases zero : index.isZero = true
      · rw [plainSource, if_pos zero] at stops
        have count := congrArg Prod.snd stops
        cases count
      · rw [walkPtr, if_neg zero]
        rfl
  | convertOp dst operand =>
      cases dst with
      | ptr pointed space isReference => cases noConversion
      | _ => rfl
  | _ => rfl

/-- A chain is walked to its source. -/
theorem walkPtr_chain {ptr : PtrNode} {isUniform : Bool} {pointed : IrType} {accessed : AddressSpace} {chain : PtrChain}
    (typed : checkType config ptr = .ok (.qualified isUniform (.ptr pointed accessed false)))
    (isChain : ptrChain config ptr = some chain) :
    walkPtr config ptr 0 false accessed =
      .ok ⟨chain.source, chain.distance, chain.conversion.isSome, chain.srcAs accessed⟩ := by
  obtain ⟨isUniform', type', typedSource, -⟩ := plainSource_typed ptr _ _ typed rfl
  rw [walkPtr_plain, Nat.zero_add]
  unfold ptrChain at isChain
  cases conversion : ptrConversion (plainSource ptr).1 with
  | none =>
      rw [conversion] at isChain
      cases isChain
      exact walkPtr_stop (plainSource_stops ptr) conversion _ _ _
  | some found =>
      obtain ⟨dst, operand⟩ := found
      simp only [conversion] at isChain
      cases again : ptrConversion (plainSource operand).1 with
      | some _ =>
          rw [again] at isChain
          cases isChain
      | none =>
          simp only [again] at isChain
          obtain ⟨src, isSpace, rfl⟩ := Option.map_eq_some_iff.mp isChain
          obtain ⟨dstPointed, isReference, same⟩ := ptrConversion_eq conversion
          rw [same] at typedSource ⊢
          obtain ⟨operandType, typedOperand, cast⟩ := bind_eq_ok.mp typedSource
          obtain ⟨operandUniform, srcType, rfl, -, legal, -, -⟩ := checkCast_ok.mp cast
          obtain ⟨srcSpace, rfl, -⟩ := isConversionLegal_ok legal
          rw [ptrSpace_of_typed typedOperand] at isSpace
          cases isSpace
          rw [walkPtr, typedOperand]
          exact (walkPtr_plain operand _ _ _).trans (walkPtr_stop (plainSource_stops operand) again _ _ _)

/-- A second conversion to a pointer fails the assertion. -/
theorem walkPtr_twice {ptr : PtrNode} {isUniform : Bool} {pointed : IrType} {accessed : AddressSpace}
    (typed : checkType config ptr = .ok (.qualified isUniform (.ptr pointed accessed false)))
    (noChain : ptrChain config ptr = none) : walkPtr config ptr 0 false accessed =
      .error (.assertion "something should not be converted to generic twice!") := by
  obtain ⟨isUniform', type', typedSource, -⟩ := plainSource_typed ptr _ _ typed rfl
  rw [walkPtr_plain, Nat.zero_add]
  unfold ptrChain at noChain
  cases conversion : ptrConversion (plainSource ptr).1 with
  | none =>
      rw [conversion] at noChain
      cases noChain
  | some found =>
      obtain ⟨dst, operand⟩ := found
      simp only [conversion] at noChain
      obtain ⟨dstPointed, isReference, same⟩ := ptrConversion_eq conversion
      rw [same] at typedSource ⊢
      obtain ⟨operandType, typedOperand, cast⟩ := bind_eq_ok.mp typedSource
      obtain ⟨operandUniform, srcType, rfl, -, legal, -, -⟩ := checkCast_ok.mp cast
      obtain ⟨srcSpace, rfl, -⟩ := isConversionLegal_ok legal
      rw [walkPtr, typedOperand]
      cases again : ptrConversion (plainSource operand).1 with
      | none =>
          simp only [again, ptrSpace_of_typed typedOperand] at noChain
          cases noChain
      | some found' =>
          obtain ⟨dst', operand'⟩ := found'
          obtain ⟨dstPointed', isReference', same'⟩ := ptrConversion_eq again
          refine (walkPtr_plain operand _ _ _).trans ?_
          rw [same', walkPtr]
          rfl

/-! ## The places along a chain -/

theorem plainSource_isCastChain {ptr : PtrNode} (casts : ptr.isCastChain = true) :
    (plainSource ptr).1.isCastChain = true := by
  induction ptr with
  | reinterpretOp dst operand ih => exact ih casts
  | ptrCompositeElement ptr index ih =>
      obtain ⟨zero, rest⟩ := Bool.and_eq_true_iff.mp casts
      rw [plainSource, if_pos zero]
      exact ih rest
  | _ => exact casts

/-- At the source of a chain of casts stands another node. -/
theorem ptrChain_source {ptr : PtrNode} {chain : PtrChain} (casts : ptr.isCastChain = true)
    (isChain : ptrChain config ptr = some chain) : ∃ id isUniform type, chain.source = .source id isUniform type := by
  have isSource : ∀ {node : PtrNode}, node.isCastChain = true → plainSource node = (node, 0) → ptrConversion node = none →
      ∃ id isUniform type, node = .source id isUniform type := by
    intro node casts stops noConversion
    cases node with
    | source id isUniform type => exact ⟨id, isUniform, type, rfl⟩
    | reinterpretOp dst operand => cases congrArg Prod.snd stops
    | convertOp dst operand =>
        cases dst with
        | ptr pointed space isReference => cases noConversion
        | _ => cases casts
    | ptrCompositeElement ptr index =>
        rw [plainSource, if_pos (Bool.and_eq_true_iff.mp casts).1] at stops
        cases congrArg Prod.snd stops
    | _ => cases casts
  have castsSource := plainSource_isCastChain casts
  unfold ptrChain at isChain
  cases conversion : ptrConversion (plainSource ptr).1 with
  | none =>
      rw [conversion] at isChain
      cases isChain
      exact isSource castsSource (plainSource_stops ptr) conversion
  | some found =>
      obtain ⟨dst, operand⟩ := found
      simp only [conversion] at isChain
      cases again : ptrConversion (plainSource operand).1 with
      | some _ =>
          rw [again] at isChain
          cases isChain
      | none =>
          simp only [again] at isChain
          obtain ⟨src, -, rfl⟩ := Option.map_eq_some_iff.mp isChain
          obtain ⟨pointed, isReference, same⟩ := ptrConversion_eq conversion
          rw [same] at castsSource
          exact isSource (plainSource_isCastChain castsSource) (plainSource_stops operand) again

section Places
variable {Bits : Type} (meaning : PtrMeaning Bits)

theorem bits_plainSource (ptr : PtrNode) : meaning.bits config ptr = meaning.bits config (plainSource ptr).1 := by
  induction ptr with
  | reinterpretOp dst operand ih => exact ih
  | ptrCompositeElement ptr index ih =>
      by_cases zero : index.isZero = true
      · rw [PtrMeaning.bits, if_pos zero, plainSource, if_pos zero]
        exact ih
      · rw [plainSource, if_neg zero]
  | _ => rfl

/-- The accessed pointer denotes the place that the casts lead to from the source. -/
theorem place_ptrChain {ptr : PtrNode} {isUniform : Bool} {pointed : IrType} {accessed : AddressSpace} {chain : PtrChain}
    (casts : ptr.isCastChain = true)
    (typed : checkType config ptr = .ok (.qualified isUniform (.ptr pointed accessed false)))
    (isChain : ptrChain config ptr = some chain) : meaning.place config ptr =
      chainPlace meaning.toGenericFormat chain.conversion accessed (meaning.value chain.source) := by
  obtain ⟨id, sourceUniform, type, isSource⟩ := ptrChain_source casts isChain
  have sourceBits : meaning.bits config chain.source = some (meaning.value chain.source) := by
    rw [isSource]
    rfl
  rw [PtrMeaning.place, ptrSpace_of_typed typed, bits_plainSource]
  unfold ptrChain at isChain
  cases conversion : ptrConversion (plainSource ptr).1 with
  | none =>
      rw [conversion] at isChain
      cases isChain
      simp only [Option.bind_eq_bind, Option.bind_some, sourceBits]
      rfl
  | some found =>
      obtain ⟨dst, operand⟩ := found
      simp only [conversion] at isChain
      cases again : ptrConversion (plainSource operand).1 with
      | some _ =>
          rw [again] at isChain
          cases isChain
      | none =>
          simp only [again] at isChain
          obtain ⟨src, isSpace, rfl⟩ := Option.map_eq_some_iff.mp isChain
          obtain ⟨dstPointed, isReference, same⟩ := ptrConversion_eq conversion
          rw [same, PtrMeaning.bits, isSpace, bits_plainSource, sourceBits]
          simp only [Option.bind_eq_bind, Option.bind_some, chainPlace, Option.bind_assoc]

end Places

end Chains

/-! ## The new pointer -/

/-- The pointer that takes the place of a chain, from the type of its source. -/
def PtrChain.newPtr (chain : PtrChain) (accessed : AddressSpace) (pointed sourceType : IrType) : PtrNode :=
  if pointsTo pointed sourceType then chain.source
  else .reinterpretOp (.ptr pointed (chain.srcAs accessed) false) chain.source

section NewPtr
variable {config : TypesConfig} {ptr : PtrNode} {isUniform sourceUniform : Bool} {pointed sourceType : IrType}
  {accessed : AddressSpace} {chain : PtrChain}

/-- A chain that is not left alone has a cast in front, whose type was checked. -/
theorem varying_of_touched (typed : checkType config ptr = .ok (.qualified isUniform (.ptr pointed accessed false)))
    (isChain : ptrChain config ptr = some chain) (touched : ¬ chain.Untouched) : (config.isSimt || isUniform) = true := by
  have untouched : plainSource ptr = (ptr, 0) → ptrConversion ptr = none → chain.Untouched := by
    intro stops noConversion
    rw [ptrChain, stops, noConversion] at isChain
    cases isChain
    exact ⟨rfl, Nat.zero_le 1⟩
  cases ptr with
  | reinterpretOp dst operand =>
      obtain ⟨operandType, -, cast⟩ := bind_eq_ok.mp typed
      obtain ⟨_, _, -, -, -, varying, same⟩ := checkCast_ok.mp cast
      cases same
      exact varying
  | convertOp dst operand =>
      obtain ⟨operandType, -, cast⟩ := bind_eq_ok.mp typed
      obtain ⟨_, _, -, -, -, varying, same⟩ := checkCast_ok.mp cast
      cases same
      exact varying
  | ptrCompositeElement ptr index =>
      obtain ⟨ptrType, -, isElement⟩ := bind_eq_ok.mp typed
      obtain ⟨_, _, _, _, _, -, -, varying, same⟩ := checkPtrCompositeElement_ok.mp isElement
      cases same
      exact varying
  | _ => exact absurd (untouched rfl rfl) touched

theorem pointsTo_iff {type : IrType} : pointsTo pointed type = true ↔ ∃ space isReference, type = .ptr pointed space isReference := by
  cases type with
  | ptr pointed' space isReference => simp [pointsTo]
  | _ => simp [pointsTo]

/-- The cast that is rebuilt passes the check if and only if it is legal. -/
theorem newPtr_cast (castable : sourceType.isCastable = true)
    (width : sourceType.bitwidth config = (IrType.ptr pointed (chain.srcAs accessed) false).bitwidth config)
    (other : ¬ pointsTo pointed sourceType = true) :
    sourceType.isReinterpretCastLegal config (.ptr pointed (chain.srcAs accessed) false) = .ok true ↔
      chain.CastLegal accessed pointed sourceType := by
  have differ : sourceType ≠ .ptr pointed (chain.srcAs accessed) false := by
    rintro rfl
    exact other (pointsTo_iff.mpr ⟨_, _, rfl⟩)
  rw [isReinterpretCastLegal_ok differ]
  have same_iff : SameGenericity sourceType (.ptr pointed (chain.srcAs accessed) false) ↔
      chain.CastLegal accessed pointed sourceType := by
    cases sourceType with
    | ptr sourcePointed space isReference =>
        have distinct : sourcePointed ≠ pointed := by
          rintro rfl
          exact other (pointsTo_iff.mpr ⟨_, _, rfl⟩)
        have notReference : isReference = false := by
          simpa [IrType.isCastable, IrType.isArithmType, IrType.isPhysicalPtrType] using castable
        simp [SameGenericity, PtrChain.CastLegal, IrType.isPhysicalPtrType, IrType.isGenericPtrType, distinct, notReference]
    | _ => simp [SameGenericity, PtrChain.CastLegal, IrType.isPhysicalPtrType]
  rw [same_iff]
  exact ⟨fun parts => parts.2.2.2, fun legal => ⟨castable, rfl, width, legal⟩⟩

theorem newPtr_typed (typedSource : checkType config chain.source = .ok (.qualified sourceUniform sourceType))
    (castable : sourceType.isCastable = true)
    (width : sourceType.bitwidth config = (IrType.ptr pointed (chain.srcAs accessed) false).bitwidth config)
    (varying : (config.isSimt || sourceUniform) = true) (legal : chain.CastLegal accessed pointed sourceType) :
    checkType config (chain.newPtr accessed pointed sourceType) =
      .ok (.qualified sourceUniform (.ptr pointed (chain.newSpace accessed pointed sourceType) false)) := by
  unfold PtrChain.newPtr
  by_cases same : pointsTo pointed sourceType = true
  · obtain ⟨space, isReference, rfl⟩ := pointsTo_iff.mp same
    have notReference : isReference = false := by
      simpa [IrType.isCastable, IrType.isArithmType, IrType.isPhysicalPtrType] using castable
    rw [if_pos same, typedSource, PtrChain.newSpace, if_pos rfl, notReference]
  · have space : chain.newSpace accessed pointed sourceType = chain.srcAs accessed := by
      cases sourceType with
      | ptr sourcePointed space isReference =>
          refine if_neg ?_
          rintro rfl
          exact same (pointsTo_iff.mpr ⟨_, _, rfl⟩)
      | _ => rfl
    rw [if_neg same, space]
    refine bind_eq_ok.mpr ⟨_, typedSource, checkCast_ok.mpr ⟨_, _, rfl, rfl, ?_, varying, rfl⟩⟩
    exact (newPtr_cast castable width same).mpr legal

/-- The new pointer is left alone when it is looked at again. -/
theorem newPtr_untouched (stops : plainSource chain.source = (chain.source, 0))
    (noConversion : ptrConversion chain.source = none) :
    ∃ again, ptrChain config (chain.newPtr accessed pointed sourceType) = some again ∧ again.Untouched := by
  unfold PtrChain.newPtr
  split_ifs with same
  · refine ⟨⟨chain.source, 0, none⟩, ?_, rfl, Nat.zero_le 1⟩
    rw [ptrChain, stops, noConversion]
  · refine ⟨⟨chain.source, 1, none⟩, ?_, rfl, Nat.le_refl 1⟩
    rw [ptrChain, plainSource, stops, noConversion]

variable (create : PtrNode → Except CheckError PtrNode)

theorem simplifyPtrOperand_reference
    (typed : checkType config ptr = .ok (.qualified isUniform (.ptr pointed accessed true))) :
    simplifyPtrOperand config create ptr = .ok none := by
  rw [simplifyPtrOperand, typed]
  rfl

/-- The operand is walked, and what happens next depends on the walk. -/
theorem simplifyPtrOperand_typed
    (typed : checkType config ptr = .ok (.qualified isUniform (.ptr pointed accessed false))) :
    simplifyPtrOperand config create ptr = walkPtr config ptr 0 false accessed >>= fun walk =>
      if walk.distance > 1 || walk.specializeGeneric then do
        let (_, srcType) ← (← checkType config walk.ptr).deconstructQualifiedType
        if pointsTo pointed srcType then return some walk.ptr
        else return some (← create (.reinterpretOp (.ptr pointed walk.srcAs false) walk.ptr))
      else return none := by
  rw [simplifyPtrOperand, typed]
  change resolvePtrSource config create ptr = _
  rw [resolvePtrSource, typed]
  rfl

theorem simplifyPtrOperand_twice
    (typed : checkType config ptr = .ok (.qualified isUniform (.ptr pointed accessed false)))
    (noChain : ptrChain config ptr = none) : simplifyPtrOperand config create ptr =
      .error (.assertion "something should not be converted to generic twice!") := by
  rw [simplifyPtrOperand_typed create typed, walkPtr_twice typed noChain]
  rfl

theorem untouched_iff : chain.Untouched ↔ ¬ (decide (chain.distance > 1) || chain.conversion.isSome) = true := by
  cases conversion : chain.conversion with
  | none => simp [PtrChain.Untouched, conversion]
  | some spaces => simp [PtrChain.Untouched, conversion]

theorem simplifyPtrOperand_untouched
    (typed : checkType config ptr = .ok (.qualified isUniform (.ptr pointed accessed false)))
    (isChain : ptrChain config ptr = some chain) (untouched : chain.Untouched) :
    simplifyPtrOperand config create ptr = .ok none := by
  rw [simplifyPtrOperand_typed create typed, walkPtr_chain typed isChain]
  exact if_neg (untouched_iff.mp untouched)

theorem simplifyPtrOperand_touched
    (typed : checkType config ptr = .ok (.qualified isUniform (.ptr pointed accessed false)))
    (isChain : ptrChain config ptr = some chain) (touched : ¬ chain.Untouched)
    (typedSource : checkType config chain.source = .ok (.qualified sourceUniform sourceType)) :
    simplifyPtrOperand config create ptr =
      if pointsTo pointed sourceType then .ok (some chain.source)
      else (create (.reinterpretOp (.ptr pointed (chain.srcAs accessed) false) chain.source)).map some := by
  rw [simplifyPtrOperand_typed create typed, walkPtr_chain typed isChain]
  refine (if_pos (not_not.mp fun still => touched (untouched_iff.mpr still))).trans ?_
  rw [typedSource]
  rfl

end NewPtr

/-! ## The creation of the new nodes -/

section Creation
variable {config : TypesConfig}

theorem isSubtype_refl (type : IrType) : type.isSubtype type = true := by
  unfold IrType.isSubtype
  rw [decide_eq_true rfl, Bool.true_or]

theorem isSubtype_qualified {superUniform isUniform : Bool} {type : IrType} :
    (IrType.qualified superUniform type).isSubtype (.qualified isUniform type) = true ↔
      (superUniform = true → isUniform = true) := by
  rw [IrType.isSubtype, isSubtype_refl]
  cases superUniform <;> cases isUniform <;> simp

/-- Pointers of two address spaces are no subtypes of each other. -/
theorem isSubtype_qualified_ptr {superUniform isUniform : Bool} {pointed : IrType} {superSpace space : AddressSpace}
    (uniform : superUniform = true → isUniform = true) :
    (IrType.qualified superUniform (.ptr pointed superSpace false)).isSubtype (.qualified isUniform (.ptr pointed space false)) = true ↔
      space = superSpace := by
  constructor
  · intro subtype
    rw [IrType.isSubtype, IrType.isSubtype] at subtype
    simp only [IrType.qualified.injEq, IrType.ptr.injEq, Bool.or_eq_true, Bool.and_eq_true, decide_eq_true_eq] at subtype
    grind
  · rintro rfl
    exact isSubtype_qualified.mpr uniform

theorem checkFolded_self {node : PtrNode} {type : IrType} (typed : checkType config node = .ok type) :
    checkFolded config node node = .ok node := by
  refine bind_eq_ok.mpr ⟨type, typed, bind_eq_ok.mpr ⟨type, typed, bind_eq_ok.mpr ⟨(), ?_, rfl⟩⟩⟩
  exact ensure_ok.mpr (isSubtype_refl type)

theorem createPtrNode_typed {fuel : Nat} {node : PtrNode} {type : IrType} (typed : checkType config node = .ok type) :
    createPtrNode config (fuel + 1) node = foldPtrNode config (createPtrNode config fuel) node := by
  rw [createPtrNode, typed]
  rfl

/-- A cast that changes the type stays as it is. -/
theorem createPtrNode_reinterpret {fuel : Nat} {dst operandType type : IrType} {operand : PtrNode} {isUniform : Bool}
    (typedOperand : checkType config operand = .ok (.qualified isUniform operandType)) (other : dst ≠ operandType)
    (typed : checkType config (.reinterpretOp dst operand) = .ok type) :
    createPtrNode config (fuel + 1) (.reinterpretOp dst operand) = .ok (.reinterpretOp dst operand) := by
  rw [createPtrNode_typed typed]
  refine bind_eq_ok.mpr ⟨_, rfl, bind_eq_ok.mpr ⟨_, typedOperand, bind_eq_ok.mpr ⟨(isUniform, operandType), rfl, ?_⟩⟩⟩
  change checkFolded config _ (if dst = operandType then operand else .reinterpretOp dst operand) = _
  rw [if_neg other]
  exact checkFolded_self typed

theorem createPtrNode_convert {fuel : Nat} {dst operandType type : IrType} {operand : PtrNode} {isUniform : Bool}
    (typedOperand : checkType config operand = .ok (.qualified isUniform operandType)) (other : dst ≠ operandType)
    (typed : checkType config (.convertOp dst operand) = .ok type) :
    createPtrNode config (fuel + 1) (.convertOp dst operand) = .ok (.convertOp dst operand) := by
  rw [createPtrNode_typed typed]
  refine bind_eq_ok.mpr ⟨_, rfl, bind_eq_ok.mpr ⟨_, typedOperand, bind_eq_ok.mpr ⟨(isUniform, operandType), rfl, ?_⟩⟩⟩
  change checkFolded config _ (if dst = operandType then operand else .convertOp dst operand) = _
  rw [if_neg other]
  exact checkFolded_self typed

/-- A conversion to the same type is folded away. -/
theorem createPtrNode_convert_identity {fuel : Nat} {operandType : IrType} {operand result : PtrNode} {isUniform : Bool}
    (typedOperand : checkType config operand = .ok (.qualified isUniform operandType))
    (created : createPtrNode config fuel (.convertOp operandType operand) = .ok result) : result = operand := by
  cases fuel with
  | zero => cases created
  | succ fuel =>
      obtain ⟨type, typed, folded⟩ := bind_eq_ok.mp created
      obtain ⟨node, same, folded⟩ := bind_eq_ok.mp folded
      cases same
      obtain ⟨_, typed', folded⟩ := bind_eq_ok.mp folded
      rw [typedOperand] at typed'
      cases typed'
      obtain ⟨pair, isPair, folded⟩ := bind_eq_ok.mp folded
      cases isPair
      change checkFolded config _ (if operandType = operandType then operand else .convertOp operandType operand) = _ at folded
      rw [if_pos rfl] at folded
      obtain ⟨_, -, folded⟩ := bind_eq_ok.mp folded
      obtain ⟨_, -, folded⟩ := bind_eq_ok.mp folded
      obtain ⟨_, -, folded⟩ := bind_eq_ok.mp folded
      exact (pure_eq_ok.mp folded).symm

/-- What is made of an access through a pointer that is left alone. -/
def settled (node nptr : PtrNode) : PtrNode :=
  match node with
  | .ptrArrayElementOffset _ offset => if offset.isZero then nptr else node
  | _ => node

theorem createPtrNode_access (fuel : Nat) {node ptr : PtrNode} {withPtr : PtrNode → PtrNode} {isUniform : Bool} {pointed : IrType}
    {space : AddressSpace} {chain : PtrChain} {type : IrType} (isAccess : node.ptrOperand = some (ptr, withPtr))
    (typedPtr : checkType config ptr = .ok (.qualified isUniform (.ptr pointed space false)))
    (isChain : ptrChain config ptr = some chain) (untouched : chain.Untouched)
    (typed : checkType config node = .ok type) : createPtrNode config (fuel + 1) node = .ok (settled node ptr) := by
  have simplified : foldSimplifyPtrOperand config (createPtrNode config fuel) node = .ok node := by
    unfold foldSimplifyPtrOperand
    rw [isAccess]
    exact bind_eq_ok.mpr ⟨none, simplifyPtrOperand_untouched _ typedPtr isChain untouched, rfl⟩
  rw [createPtrNode_typed typed, foldPtrNode, simplified]
  cases node with
  | ptrArrayElementOffset ptr' offset =>
      cases isAccess
      by_cases zero : offset.isZero = true
      · exact (if_pos zero).trans (congrArg Except.ok (if_pos zero).symm)
      · exact (if_neg zero).trans ((checkFolded_self typed).trans (congrArg Except.ok (if_neg zero).symm))
  | source id isUniform type => cases isAccess
  | reinterpretOp dst operand => cases isAccess
  | convertOp dst operand => cases isAccess
  | _ => exact checkFolded_self typed

end Creation

/-! ## Accesses through the new pointer -/

/-- A pointer with the one that the folder puts in its place. -/
structure Replaced (config : TypesConfig) (ptr nptr : PtrNode) (pointed : IrType) (accessed new : AddressSpace)
    (isUniform newUniform : Bool) (conversion : Option (AddressSpace × AddressSpace)) : Prop where
  typed : checkType config ptr = .ok (.qualified isUniform (.ptr pointed accessed false))
  typedNew : checkType config nptr = .ok (.qualified newUniform (.ptr pointed new false))
  uniform : isUniform = true → newUniform = true
  settles : ∃ chain, ptrChain config nptr = some chain ∧ chain.Untouched
  simplifies : ∀ fuel, simplifyPtrOperand config (createPtrNode config (fuel + 1)) ptr = .ok (some nptr)
  starved : ∀ nptr', simplifyPtrOperand config (createPtrNode config 0) ptr ≠ .ok none ∧
    (simplifyPtrOperand config (createPtrNode config 0) ptr = .ok (some nptr') → nptr' = nptr)
  width : (IrType.ptr pointed new false).bitwidth config = (IrType.ptr pointed accessed false).bitwidth config
  proper : conversion ≠ some (.generic, .generic)
  places : ∃ source : PtrNode, ∀ (Bits : Type) (meaning : PtrMeaning Bits),
    meaning.place config ptr = chainPlace meaning.toGenericFormat conversion accessed (meaning.value source) ∧
      meaning.place config nptr = meaning.locate new (meaning.value source) ∧
      meaning.reached config nptr = meaning.place config nptr
  sameType : accessedType config nptr = pointedType config nptr

/-- Pointers mean the same bits wherever they start, and addresses are not displaced. -/
def constantMeaning (bits : List AddressSpace) : PtrMeaning (List AddressSpace) where
  toGenericFormat := nestedFormat
  value := fun _ => bits
  element := fun _ _ address => address
  offset := fun _ _ address => address

section Accesses
variable {config : TypesConfig} {node ptr nptr : PtrNode} {withPtr : PtrNode → PtrNode} {pointed type : IrType}
  {accessed new : AddressSpace} {isUniform newUniform : Bool} {conversion : Option (AddressSpace × AddressSpace)}

theorem foldSimplifyPtrOperand_starved (replaced : Replaced config ptr nptr pointed accessed new isUniform newUniform conversion)
    (isAccess : node.ptrOperand = some (ptr, withPtr)) (result : PtrNode) :
    foldSimplifyPtrOperand config (createPtrNode config 0) node ≠ .ok result := by
  intro folded
  unfold foldSimplifyPtrOperand at folded
  rw [isAccess] at folded
  obtain ⟨found, simplified, folded⟩ := bind_eq_ok.mp folded
  cases found with
  | none => exact (replaced.starved nptr).1 simplified
  | some nptr' =>
      obtain ⟨r, created, -⟩ := bind_eq_ok.mp folded
      cases created

variable (withPtr) in
/-- What the folder makes of an access, when the access through the new pointer can be created. -/
theorem foldSimplifyPtrOperand_replaced (replaced : Replaced config ptr nptr pointed accessed new isUniform newUniform conversion)
    (isAccess : node.ptrOperand = some (ptr, withPtr)) (isAccessNew : (withPtr nptr).ptrOperand = some (nptr, withPtr))
    (typed : checkType config node = .ok type) {createdType rType : IrType}
    (createdTyped : checkType config (withPtr nptr) = .ok createdType)
    (typedResult : checkType config (settled (withPtr nptr) nptr) = .ok rType) (fuel : Nat) :
    foldSimplifyPtrOperand config (createPtrNode config (fuel + 1)) node =
      if type.isSubtype rType = true then .ok (settled (withPtr nptr) nptr)
      else type.deconstructQualifiedType >>= fun parts =>
        createPtrNode config (fuel + 1) (.convertOp parts.2 (settled (withPtr nptr) nptr)) := by
  obtain ⟨chain, isChain, untouched⟩ := replaced.settles
  have created := createPtrNode_access fuel isAccessNew replaced.typedNew isChain untouched createdTyped
  unfold foldSimplifyPtrOperand
  rw [isAccess]
  simp only [replaced.simplifies]
  let finish := fun r : PtrNode => do
    let type ← checkType config node
    if type.isSubtype (← checkType config r) then return r
    else
      let (_, dst) ← type.deconstructQualifiedType
      createPtrNode config (fuel + 1) (.convertOp dst r)
  change createPtrNode config (fuel + 1) (withPtr nptr) >>= finish = _
  rw [created]
  change finish (settled (withPtr nptr) nptr) = _
  simp only [finish, typed, typedResult]
  rfl

variable (withPtr) in
/-- The access through the new pointer was created, if the fold went through. -/
theorem typed_of_folded (replaced : Replaced config ptr nptr pointed accessed new isUniform newUniform conversion)
    (isAccess : node.ptrOperand = some (ptr, withPtr)) {fuel : Nat} {result : PtrNode}
    (folded : foldSimplifyPtrOperand config (createPtrNode config fuel) node = .ok result) :
    ∃ fuel' createdType, fuel = fuel' + 1 ∧ checkType config (withPtr nptr) = .ok createdType := by
  cases fuel with
  | zero => exact absurd folded (foldSimplifyPtrOperand_starved replaced isAccess result)
  | succ fuel =>
      unfold foldSimplifyPtrOperand at folded
      rw [isAccess] at folded
      obtain ⟨found, simplified, folded⟩ := bind_eq_ok.mp folded
      rw [replaced.simplifies] at simplified
      cases simplified
      obtain ⟨r, created, -⟩ := bind_eq_ok.mp folded
      obtain ⟨createdType, createdTyped, -⟩ := bind_eq_ok.mp created
      exact ⟨fuel, createdType, rfl, createdTyped⟩

/-- Accesses that reach the same places have spaces that agree. -/
theorem spacesAgree_of_reached (replaced : Replaced config ptr nptr pointed accessed new isUniform newUniform conversion)
    {computes : Bool} (same : ∀ bits place, (constantMeaning bits).place config ptr = some place →
      (computes = false → (constantMeaning bits).place config nptr = some place) ∧
      (computes = true → ((constantMeaning bits).place config nptr).bind (convertPlace new accessed) = some place)) :
    SpacesAgree conversion computes accessed new := by
  obtain ⟨source, places⟩ := replaced.places
  refine spacesAgree_of_places replaced.proper fun bits place denotes => ?_
  obtain ⟨old, fresh, -⟩ := places _ (constantMeaning bits)
  rw [← show (constantMeaning bits).place config nptr = nestedFormat.locate new bits from fresh]
  exact same bits place (old.trans denotes)

/-- Through spaces that agree, the new pointer denotes the place of the accessed one. -/
theorem place_of_replaced (replaced : Replaced config ptr nptr pointed accessed new isUniform newUniform conversion)
    {computes : Bool} (agree : SpacesAgree conversion computes accessed new) {Bits : Type} (meaning : PtrMeaning Bits)
    {place : AddressSpace × Bits} (denotes : meaning.place config ptr = some place) :
    ∃ space, meaning.place config nptr = some (space, place.2) ∧ (computes = false → space = place.1) ∧
      (new = accessed → space = place.1) ∧
      ∀ address : Bits, convertPlace new accessed (space, address) = some (place.1, address) := by
  obtain ⟨source, places⟩ := replaced.places
  obtain ⟨old, fresh, -⟩ := places _ meaning
  rw [old] at denotes
  rw [fresh]
  exact place_of_spacesAgree replaced.proper agree denotes

variable (withPtr) in
/-- An access that stays an access through the new pointer. -/
theorem access_iff (replaced : Replaced config ptr nptr pointed accessed new isUniform newUniform conversion)
    (typed : checkType config node = .ok type)
    (old : accessedType config node = pointedType config ptr ∧
      ∀ (Bits : Type) (meaning : PtrMeaning Bits), meaning.reached config node = meaning.place config ptr)
    (fresh : accessedType config (withPtr nptr) = pointedType config nptr ∧
      ∀ (Bits : Type) (meaning : PtrMeaning Bits), meaning.reached config (withPtr nptr) = meaning.place config nptr)
    {admits : Prop} (passes : admits → ∃ rType, checkType config (withPtr nptr) = .ok rType ∧ type.isSubtype rType = true ∧
      foldSimplifyPtrOperand config (createPtrNode config 1) node = .ok (withPtr nptr))
    (needs : ∀ fuel result rType, foldSimplifyPtrOperand config (createPtrNode config fuel) node = .ok result →
      checkType config result = .ok rType → type.isSubtype rType = true → admits ∧ result = withPtr nptr) :
    SimplifiesSoundly config node ↔ SpacesAgree conversion false accessed new ∧ admits := by
  constructor
  · intro sound
    obtain ⟨fuel, result, type', rType, folded, typed', typedResult, subtype, -, same⟩ := sound
    rw [typed] at typed'
    cases typed'
    obtain ⟨admitted, rfl⟩ := needs fuel result rType folded typedResult subtype
    refine ⟨spacesAgree_of_reached replaced fun bits place denotes => ⟨fun _ => ?_, nofun⟩, admitted⟩
    have reached := same _ (constantMeaning bits) place
    rw [old.2, fresh.2] at reached
    exact reached denotes
  · intro parts
    obtain ⟨agree, admitted⟩ := parts
    obtain ⟨rType, typedResult, subtype, folded⟩ := passes admitted
    refine ⟨1, withPtr nptr, type, rType, folded, typed, typedResult, subtype, ?_, fun Bits meaning place reached => ?_⟩
    · rw [fresh.1, old.1, pointedType_of_typed replaced.typed, pointedType_of_typed replaced.typedNew]
    · rw [old.2] at reached
      obtain ⟨space, denotes, same, -⟩ := place_of_replaced replaced agree meaning reached
      rw [fresh.2, denotes, same rfl]

theorem checkType_load {isReference : Bool} {space : AddressSpace}
    (typedPtr : checkType config ptr = .ok (.qualified isUniform (.ptr pointed space isReference))) :
    checkType config (.load ptr) = qualifiedType config (isUniform && config.isAddrSpaceUniform space) pointed := by
  rw [checkType, typedPtr]
  rfl

theorem load_iff (replaced : Replaced config ptr nptr pointed accessed new isUniform newUniform conversion)
    (typed : checkType config (.load ptr) = .ok type) : SimplifiesSoundly config (.load ptr) ↔
      SpacesAgree conversion false accessed new ∧
        (isUniform = true → config.isAddrSpaceUniform accessed = true → config.isAddrSpaceUniform new = true) := by
  have loaded := checkType_load replaced.typed
  have loadedNew := checkType_load replaced.typedNew
  obtain ⟨isData, varying, rfl⟩ := qualifiedType_ok.mp (loaded.symm.trans typed)
  refine access_iff .load replaced typed ⟨rfl, fun _ _ => rfl⟩ ⟨rfl, fun _ _ => rfl⟩ ?_ ?_
  · intro admitted
    have uniform : (isUniform && config.isAddrSpaceUniform accessed) = true →
        (newUniform && config.isAddrSpaceUniform new) = true := by
      intro both
      obtain ⟨isTrue, spaceUniform⟩ := Bool.and_eq_true_iff.mp both
      exact Bool.and_eq_true_iff.mpr ⟨replaced.uniform isTrue, admitted isTrue spaceUniform⟩
    have typedNew : checkType config (.load nptr) =
        .ok (.qualified (newUniform && config.isAddrSpaceUniform new) pointed) := by
      refine loadedNew.trans (qualifiedType_ok.mpr ⟨isData, ?_, rfl⟩)
      rw [Bool.or_eq_true] at varying ⊢
      exact varying.imp_right uniform
    have subtype : (IrType.qualified _ pointed).isSubtype (.qualified _ pointed) = true := isSubtype_qualified.mpr uniform
    refine ⟨_, typedNew, subtype, ?_⟩
    rw [foldSimplifyPtrOperand_replaced .load replaced rfl rfl typed typedNew typedNew 0]
    exact if_pos subtype
  · intro fuel result rType folded typedResult subtype
    obtain ⟨fuel', createdType, rfl, created⟩ := typed_of_folded .load replaced rfl folded
    obtain ⟨-, -, rfl⟩ := qualifiedType_ok.mp (loadedNew.symm.trans created)
    rw [foldSimplifyPtrOperand_replaced .load replaced rfl rfl typed created created] at folded
    have isLoad : result = .load nptr := by
      split_ifs at folded with same
      · cases folded
        rfl
      · exact createPtrNode_convert_identity created folded
    subst isLoad
    rw [created] at typedResult
    cases typedResult
    have uniform := isSubtype_qualified.mp subtype
    refine ⟨fun isTrue spaceUniform => ?_, rfl⟩
    exact (Bool.and_eq_true_iff.mp (uniform (Bool.and_eq_true_iff.mpr ⟨isTrue, spaceUniform⟩))).2

variable (withPtr) in
/-- An access whose check does not look at the address space. -/
theorem unchanged_iff (replaced : Replaced config ptr nptr pointed accessed new isUniform newUniform conversion)
    (isAccess : node.ptrOperand = some (ptr, withPtr)) (isAccessNew : (withPtr nptr).ptrOperand = some (nptr, withPtr))
    (notOffset : settled (withPtr nptr) nptr = withPtr nptr) (typed : checkType config node = .ok type)
    (old : accessedType config node = pointedType config ptr ∧
      ∀ (Bits : Type) (meaning : PtrMeaning Bits), meaning.reached config node = meaning.place config ptr)
    (fresh : accessedType config (withPtr nptr) = pointedType config nptr ∧
      ∀ (Bits : Type) (meaning : PtrMeaning Bits), meaning.reached config (withPtr nptr) = meaning.place config nptr)
    {admits : Prop} (passes : admits ↔ checkType config (withPtr nptr) = .ok type)
    (only : ∀ rType, checkType config (withPtr nptr) = .ok rType → rType = type) :
    SimplifiesSoundly config node ↔ SpacesAgree conversion false accessed new ∧ admits := by
  have folds : ∀ fuel, admits → foldSimplifyPtrOperand config (createPtrNode config (fuel + 1)) node = .ok (withPtr nptr) := by
    intro fuel admitted
    have typedNew := passes.mp admitted
    rw [foldSimplifyPtrOperand_replaced withPtr replaced isAccess isAccessNew typed typedNew (notOffset ▸ typedNew) fuel, notOffset]
    exact if_pos (isSubtype_refl type)
  refine access_iff withPtr replaced typed old fresh (fun admitted => ?_) fun fuel result rType folded typedResult subtype => ?_
  · exact ⟨type, passes.mp admitted, isSubtype_refl type, folds 0 admitted⟩
  · obtain ⟨fuel', createdType, rfl, created⟩ := typed_of_folded withPtr replaced isAccess folded
    obtain rfl := only createdType created
    rw [folds fuel' (passes.mpr created)] at folded
    exact ⟨passes.mpr created, (Except.ok.inj folded).symm⟩

theorem store_iff (replaced : Replaced config ptr nptr pointed accessed new isUniform newUniform conversion) {value : Argument}
    (typed : checkType config (.store ptr value) = .ok type) :
    SimplifiesSoundly config (.store ptr value) ↔ SpacesAgree conversion false accessed new := by
  have stored : ∀ {space isUniform p}, checkType config p = .ok (.qualified isUniform (.ptr pointed space false)) →
      checkType config (.store p value) = checkStore config (.qualified true (.ptr pointed .generic false)) value.type := by
    intro space isUniform p typedPtr
    rw [checkType, typedPtr]
    rfl
  have same := (stored replaced.typedNew).trans (stored replaced.typed).symm
  rw [unchanged_iff (fun p => .store p value) replaced rfl rfl rfl typed ⟨rfl, fun _ _ => rfl⟩
    ⟨rfl, fun _ _ => rfl⟩ (iff_of_true trivial (same.trans typed)), and_true]
  intro rType typedNew
  exact Except.ok.inj (typedNew.symm.trans (same.trans typed))

/-- A callee is a generic pointer. -/
theorem checkValueCall_ok (space : AddressSpace) {calleeUniform : Bool} {callee : IrType} {args : List Argument}
    {returnTypes : IrTypes} : checkValueCall (.qualified calleeUniform (.ptr callee space false)) args = .ok returnTypes ↔
      space = .generic ∧ checkValueCall (.qualified true (.ptr callee .generic false)) args = .ok returnTypes := by
  constructor
  · intro ok
    have isGeneric : space = .generic := by
      obtain ⟨_, parts, ok⟩ := bind_eq_ok.mp ok
      cases parts
      cases callee with
      | fn paramTypes returns =>
          obtain ⟨_, isGeneric, -⟩ := bind_eq_ok.mp ok
          exact of_decide_eq_true (ensure_ok.mp isGeneric)
      | _ => cases ok
    subst isGeneric
    exact ⟨rfl, ok⟩
  · intro both
    obtain ⟨rfl, ok⟩ := both
    exact ok

theorem call_iff (replaced : Replaced config ptr nptr pointed accessed new isUniform newUniform conversion) {args : List Argument}
    (typed : checkType config (.call ptr args) = .ok type) :
    SimplifiesSoundly config (.call ptr args) ↔ SpacesAgree conversion false accessed new ∧ new = .generic := by
  have called : ∀ {space isUniform p}, checkType config p = .ok (.qualified isUniform (.ptr pointed space false)) → ∀ t,
      (checkType config (.call p args) = .ok t ↔ space = .generic ∧ ∃ returnTypes,
        checkValueCall (.qualified true (.ptr pointed .generic false)) args = .ok returnTypes ∧
          maybeMultipleReturn returnTypes = t) := by
    intro space isUniform p typedPtr t
    rw [checkType, typedPtr]
    change (checkValueCall _ args >>= fun returnTypes => pure (maybeMultipleReturn returnTypes)) = .ok t ↔ _
    rw [bind_eq_ok]
    simp only [pure_eq_ok, checkValueCall_ok space, and_assoc, exists_and_left]
  obtain ⟨-, returnTypes, returns, rfl⟩ := (called replaced.typed type).mp typed
  refine unchanged_iff (fun p => .call p args) replaced rfl rfl rfl typed ⟨rfl, fun _ _ => rfl⟩
    ⟨rfl, fun _ _ => rfl⟩ ?_ ?_
  · rw [called replaced.typedNew]
    exact ⟨fun isGeneric => ⟨isGeneric, returnTypes, returns, rfl⟩, And.left⟩
  · intro rType typedNew
    obtain ⟨-, returnTypes', returns', rfl⟩ := (called replaced.typedNew rType).mp typedNew
    rw [Except.ok.inj (returns'.symm.trans returns)]

theorem tailCall_iff (replaced : Replaced config ptr nptr pointed accessed new isUniform newUniform conversion) {args : List Argument}
    (typed : checkType config (.tailCall ptr args) = .ok type) :
    SimplifiesSoundly config (.tailCall ptr args) ↔ SpacesAgree conversion false accessed new ∧ new = .generic := by
  have called : ∀ {space isUniform p}, checkType config p = .ok (.qualified isUniform (.ptr pointed space false)) → ∀ t,
      (checkType config (.tailCall p args) = .ok t ↔ space = .generic ∧
        checkValueCall (.qualified true (.ptr pointed .generic false)) args = .ok .nil ∧ .noRet = t) := by
    intro space isUniform p typedPtr t
    rw [checkType, typedPtr]
    change (checkValueCall _ args >>= fun returnTypes => ensure (decide (returnTypes = .nil)) _ >>= fun _ => pure .noRet) = .ok t ↔ _
    rw [bind_eq_ok]
    simp only [bind_eq_ok, pure_eq_ok, checkValueCall_ok space, ensure_ok, decide_eq_true_eq]
    grind
  obtain ⟨-, returns, rfl⟩ := (called replaced.typed type).mp typed
  refine unchanged_iff (fun p => .tailCall p args) replaced rfl rfl rfl typed ⟨rfl, fun _ _ => rfl⟩
    ⟨rfl, fun _ _ => rfl⟩ ?_ ?_
  · rw [called replaced.typedNew]
    exact ⟨fun isGeneric => ⟨isGeneric, returns, rfl⟩, And.left⟩
  · intro rType typedNew
    exact ((called replaced.typedNew rType).mp typedNew).2.2.symm

/-- Between pointers of the same width to the same type, a conversion to or from a generic one
    or between two others is legal. -/
theorem isConversionLegal_ptr (config : TypesConfig) (pointed : IrType) {src dst : AddressSpace} (other : src ≠ dst)
    (width : (IrType.ptr pointed src false).bitwidth config = (IrType.ptr pointed dst false).bitwidth config) :
    (IrType.ptr pointed src false).isConversionLegal config (.ptr pointed dst false) = .ok true := by
  refine bind_eq_ok.mpr ⟨(), ensure_ok.mpr rfl, ?_⟩
  have crossing : ¬ (src = .generic ∧ dst = .generic) := fun both => other (both.1.trans both.2.symm)
  simp [IrType.isArithmType, IrType.isPhysicalPtrType, IrType.isGenericPtrType, IrType.changesSignAndWidth,
    IrType.samePointedType, width, crossing]
  rfl

variable (withPtr) in
/-- The computation of an address, which is converted back where the address space is another. -/
theorem computation_iff (replaced : Replaced config ptr nptr pointed accessed new isUniform newUniform conversion)
    (isAccess : node.ptrOperand = some (ptr, withPtr)) (isAccessNew : (withPtr nptr).ptrOperand = some (nptr, withPtr))
    {element createdType : IrType} {u v : Bool} (uniform : u = true → v = true)
    (typed : checkType config node = .ok (.qualified u (.ptr element accessed false)))
    (varying : (config.isSimt || u) = true) (created : checkType config (withPtr nptr) = .ok createdType)
    (settledTyped : checkType config (settled (withPtr nptr) nptr) = .ok (.qualified v (.ptr element new false)))
    (types : accessedType config node = pointedType config node ∧
      accessedType config (settled (withPtr nptr) nptr) = pointedType config (settled (withPtr nptr) nptr))
    (displace : ∀ {Bits : Type}, PtrMeaning Bits → Bits → Bits)
    (kept : ∀ bits address, displace (constantMeaning bits) address = address)
    (old : ∀ (Bits : Type) (meaning : PtrMeaning Bits), meaning.reached config node =
      (meaning.place config ptr).map fun place => (place.1, displace meaning place.2))
    (fresh : ∀ (Bits : Type) (meaning : PtrMeaning Bits), meaning.reached config (settled (withPtr nptr) nptr) =
      (meaning.place config nptr).map fun place => (place.1, displace meaning place.2)) :
    SimplifiesSoundly config node ↔ SpacesAgree conversion true accessed new := by
  -- the result, its type, and the place that it reaches
  have facts : ∃ result, (∀ fuel, foldSimplifyPtrOperand config (createPtrNode config (fuel + 1)) node = .ok result) ∧
      checkType config result = .ok (.qualified v (.ptr element accessed false)) ∧
      accessedType config result = some element ∧ ∀ (Bits : Type) (meaning : PtrMeaning Bits), meaning.reached config result =
        ((meaning.place config nptr).map fun place => (place.1, displace meaning place.2)).bind (convertPlace new accessed) := by
    have folds := foldSimplifyPtrOperand_replaced withPtr replaced isAccess isAccessNew typed created settledTyped
    by_cases same : new = accessed
    · subst same
      refine ⟨settled (withPtr nptr) nptr, fun fuel => ?_, settledTyped, ?_, fun Bits meaning => ?_⟩
      · rw [folds fuel]
        exact if_pos ((isSubtype_qualified_ptr uniform).mpr rfl)
      · rw [types.2, pointedType_of_typed settledTyped]
      · rw [fresh]
        cases denotes : meaning.place config nptr with
        | none => rfl
        | some place =>
            obtain ⟨source, places⟩ := replaced.places
            rw [(places _ meaning).2.1] at denotes
            exact (convertPlace_self denotes _).symm
    · have legal := isConversionLegal_ptr config element same replaced.width
      have typedResult : checkType config (.convertOp (.ptr element accessed false) (settled (withPtr nptr) nptr)) =
          .ok (.qualified v (.ptr element accessed false)) := by
        refine bind_eq_ok.mpr ⟨_, settledTyped, checkCast_ok.mpr ⟨v, _, rfl, rfl, legal, ?_, rfl⟩⟩
        rw [Bool.or_eq_true] at varying ⊢
        exact varying.imp_right uniform
      refine ⟨.convertOp (.ptr element accessed false) (settled (withPtr nptr) nptr), fun fuel => ?_, typedResult, ?_,
        fun Bits meaning => ?_⟩
      · rw [folds fuel, if_neg fun subtype => same ((isSubtype_qualified_ptr uniform).mp subtype)]
        refine createPtrNode_convert settledTyped ?_ typedResult
        intro equal
        cases equal
        exact same rfl
      · exact pointedType_of_typed typedResult
      · rw [PtrMeaning.reached, ptrSpace_of_typed settledTyped, fresh]
        rfl
  obtain ⟨result, folds, typedResult, resultType, reaches⟩ := facts
  have nodeType : accessedType config node = some element := by rw [types.1, pointedType_of_typed typed]
  constructor
  · intro sound
    obtain ⟨fuel, result', type, rType, folded, -, -, -, -, same⟩ := sound
    obtain ⟨fuel', -, rfl, -⟩ := typed_of_folded withPtr replaced isAccess folded
    rw [folds fuel'] at folded
    cases folded
    refine spacesAgree_of_reached replaced fun bits place denotes => ⟨nofun, fun _ => ?_⟩
    have reached := same _ (constantMeaning bits) place
    simp only [old, reaches, kept, Prod.mk.eta, Option.map_id_fun', id_eq] at reached
    exact reached denotes
  · intro agree
    refine ⟨1, result, _, _, folds 0, typed, typedResult, isSubtype_qualified.mpr uniform, ?_, fun Bits meaning place reached => ?_⟩
    · rw [resultType, nodeType]
    · rw [old] at reached
      obtain ⟨before, denotes, rfl⟩ := Option.map_eq_some_iff.mp reached
      obtain ⟨space, denotesNew, -, -, converted⟩ := place_of_replaced replaced agree meaning denotes
      rw [reaches, denotesNew]
      exact converted _

theorem ptrCompositeElement_iff (replaced : Replaced config ptr nptr pointed accessed new isUniform newUniform conversion)
    {index : Selector} (typed : checkType config (.ptrCompositeElement ptr index) = .ok type) :
    SimplifiesSoundly config (.ptrCompositeElement ptr index) ↔ SpacesAgree conversion true accessed new := by
  obtain ⟨ptrType, typedPtr, isElement⟩ := bind_eq_ok.mp typed
  rw [replaced.typed] at typedPtr
  cases typedPtr
  obtain ⟨_, _, _, _, element, same, entered, varying, rfl⟩ := checkPtrCompositeElement_ok.mp isElement
  cases same
  have uniform : (isUniform && index.isUniform) = true → (newUniform && index.isUniform) = true := by
    intro both
    obtain ⟨isTrue, selected⟩ := Bool.and_eq_true_iff.mp both
    exact Bool.and_eq_true_iff.mpr ⟨replaced.uniform isTrue, selected⟩
  have typedNew : checkType config (.ptrCompositeElement nptr index) =
      .ok (.qualified (newUniform && index.isUniform) (.ptr element new false)) := by
    refine bind_eq_ok.mpr ⟨_, replaced.typedNew, checkPtrCompositeElement_ok.mpr ⟨_, _, _, _, element, rfl, entered, ?_, rfl⟩⟩
    rw [Bool.or_eq_true] at varying ⊢
    exact varying.imp_right uniform
  refine computation_iff (fun p => .ptrCompositeElement p index) replaced rfl rfl uniform typed varying typedNew
    typedNew ⟨rfl, rfl⟩ (fun meaning address => if index.isZero then address else meaning.element (some pointed) index address)
    (fun bits address => ?_) (fun Bits meaning => ?_) fun Bits meaning => ?_
  · exact ite_self address
  · rw [← pointedType_of_typed replaced.typed]
    rfl
  · rw [← pointedType_of_typed replaced.typedNew]
    rfl

theorem checkPtrArrayElementOffset_ok {space : AddressSpace} {offset : Selector} :
    checkPtrArrayElementOffset config (.qualified isUniform (.ptr pointed space false)) offset = .ok type ↔
      ((offset.resolved.any fun lit => lit.value == 0) || pointed.isDataType) = true ∧
        (config.isSimt || (isUniform && offset.isUniform)) = true ∧
        type = .qualified (isUniform && offset.isUniform) (.ptr pointed space false) := by
  constructor
  · intro ok
    obtain ⟨_, parts, ok⟩ := bind_eq_ok.mp ok
    cases parts
    obtain ⟨_, -, ok⟩ := bind_eq_ok.mp ok
    obtain ⟨_, isData, ok⟩ := bind_eq_ok.mp ok
    obtain ⟨-, varying, rfl⟩ := qualifiedType_ok.mp ok
    exact ⟨ensure_ok.mp isData, varying, rfl⟩
  · intro parts
    obtain ⟨isData, varying, rfl⟩ := parts
    refine bind_eq_ok.mpr ⟨(isUniform, pointed, space, false), rfl, bind_eq_ok.mpr ⟨(), ensure_ok.mpr ?_, ?_⟩⟩
    · exact Bool.or_true _
    · exact bind_eq_ok.mpr ⟨(), ensure_ok.mpr isData, qualifiedType_ok.mpr ⟨rfl, varying, rfl⟩⟩

theorem ptrArrayElementOffset_iff (replaced : Replaced config ptr nptr pointed accessed new isUniform newUniform conversion)
    {offset : Selector} (typed : checkType config (.ptrArrayElementOffset ptr offset) = .ok type) :
    SimplifiesSoundly config (.ptrArrayElementOffset ptr offset) ↔ SpacesAgree conversion true accessed new := by
  have offsetTyped : ∀ {p space isUniform}, checkType config p = .ok (.qualified isUniform (.ptr pointed space false)) →
      checkType config (.ptrArrayElementOffset p offset) =
        checkPtrArrayElementOffset config (.qualified isUniform (.ptr pointed space false)) offset := by
    intro p space isUniform typedPtr
    rw [checkType, typedPtr]
    rfl
  obtain ⟨isData, varying, rfl⟩ := checkPtrArrayElementOffset_ok.mp ((offsetTyped replaced.typed).symm.trans typed)
  have both : ∀ {u : Bool}, (isUniform = true → u = true) →
      (isUniform && offset.isUniform) = true → (u && offset.isUniform) = true := by
    intro u uniform both
    obtain ⟨isTrue, selected⟩ := Bool.and_eq_true_iff.mp both
    exact Bool.and_eq_true_iff.mpr ⟨uniform isTrue, selected⟩
  have typedNew : checkType config (.ptrArrayElementOffset nptr offset) =
      .ok (.qualified (newUniform && offset.isUniform) (.ptr pointed new false)) := by
    refine (offsetTyped replaced.typedNew).trans (checkPtrArrayElementOffset_ok.mpr ⟨isData, ?_, rfl⟩)
    rw [Bool.or_eq_true] at varying ⊢
    exact varying.imp_right (both replaced.uniform)
  have old : ∀ (Bits : Type) (meaning : PtrMeaning Bits), meaning.reached config (.ptrArrayElementOffset ptr offset) =
      (meaning.place config ptr).map fun place =>
        (place.1, if offset.isZero then place.2 else meaning.offset (some pointed) offset place.2) := by
    intro Bits meaning
    rw [← pointedType_of_typed replaced.typed]
    rfl
  by_cases zero : offset.isZero = true
  · have isSettled : settled (.ptrArrayElementOffset nptr offset) nptr = nptr := if_pos zero
    refine computation_iff (fun p => .ptrArrayElementOffset p offset) replaced rfl rfl
      (fun isTrue => replaced.uniform (Bool.and_eq_true_iff.mp isTrue).1) typed varying typedNew (v := newUniform) ?_ ?_
      (fun meaning address => address) (fun _ _ => rfl) (fun Bits meaning => ?_) fun Bits meaning => ?_
    · rw [isSettled]
      exact replaced.typedNew
    · rw [isSettled]
      exact ⟨rfl, replaced.sameType⟩
    · rw [old]
      simp only [if_pos zero]
    · obtain ⟨source, places⟩ := replaced.places
      rw [isSettled, (places Bits meaning).2.2]
      simp
  · have isSettled : settled (.ptrArrayElementOffset nptr offset) nptr = .ptrArrayElementOffset nptr offset := if_neg zero
    refine computation_iff (fun p => .ptrArrayElementOffset p offset) replaced rfl rfl (both replaced.uniform) typed
      varying typedNew ?_ ?_ (fun meaning address => meaning.offset (some pointed) offset address)
      (fun _ _ => rfl) (fun Bits meaning => ?_) fun Bits meaning => ?_
    · rw [isSettled]
      exact typedNew
    · rw [isSettled]
      exact ⟨rfl, rfl⟩
    · rw [old]
      simp only [if_neg zero]
    · rw [isSettled, ← pointedType_of_typed replaced.typedNew, PtrMeaning.reached]
      simp only [if_neg zero]

/-- A chain that is touched and whose cast is legal is replaced by the new pointer. -/
theorem replaced_of_chain {chain : PtrChain} {sourceUniform : Bool} {sourceType : IrType} (casts : ptr.isCastChain = true)
    (typed : checkType config ptr = .ok (.qualified isUniform (.ptr pointed accessed false)))
    (isChain : ptrChain config ptr = some chain) (touched : ¬ chain.Untouched)
    (typedSource : checkType config chain.source = .ok (.qualified sourceUniform sourceType))
    (legal : chain.CastLegal accessed pointed sourceType) :
    Replaced config ptr (chain.newPtr accessed pointed sourceType) pointed accessed
      (chain.newSpace accessed pointed sourceType) isUniform sourceUniform chain.conversion := by
  obtain ⟨_, _, typedSource', uniform, castable, width, sameWidth, proper, stops, noConversion⟩ := ptrChain_typed typed isChain
  rw [typedSource] at typedSource'
  cases typedSource'
  obtain ⟨id, leafUniform, leafType, isSource⟩ := ptrChain_source casts isChain
  have varying : (config.isSimt || sourceUniform) = true := by
    have checked := varying_of_touched typed isChain touched
    rw [Bool.or_eq_true] at checked ⊢
    exact checked.imp_right uniform
  have typedNew := newPtr_typed typedSource castable width varying legal
  have simplified := fun create => simplifyPtrOperand_touched create typed isChain touched typedSource
  have sourceBits : ∀ (Bits : Type) (meaning : PtrMeaning Bits),
      meaning.bits config chain.source = some (meaning.value chain.source) := by
    intro Bits meaning
    rw [isSource]
    rfl
  refine ⟨typed, typedNew, uniform, newPtr_untouched stops noConversion, fun fuel => ?_, fun nptr' => ?_, ?_, proper,
    ⟨chain.source, fun Bits meaning => ⟨place_ptrChain meaning casts typed isChain, ?_, ?_⟩⟩, ?_⟩
  · rw [simplified, PtrChain.newPtr]
    split_ifs with same
    · rfl
    · have other : IrType.ptr pointed (chain.srcAs accessed) false ≠ sourceType := by
        rintro rfl
        exact same (pointsTo_iff.mpr ⟨_, _, rfl⟩)
      rw [PtrChain.newPtr, if_neg same] at typedNew
      rw [createPtrNode_reinterpret typedSource other typedNew]
      rfl
  · rw [simplified, PtrChain.newPtr]
    split_ifs with same
    · exact ⟨nofun, fun ok => (Option.some.inj (Except.ok.inj ok)).symm⟩
    · exact ⟨nofun, nofun⟩
  · rw [← sameWidth, ← width]
    cases sourceType with
    | ptr sourcePointed space isReference =>
        by_cases same : sourcePointed = pointed
        · rw [PtrChain.newSpace, if_pos same]
          rfl
        · rw [width, PtrChain.newSpace, if_neg same]
    | _ => exact width.symm
  · rw [PtrMeaning.place, ptrSpace_of_typed typedNew, PtrChain.newPtr]
    split_ifs
    · rw [sourceBits]
      rfl
    · rw [PtrMeaning.bits, sourceBits]
      rfl
  · rw [PtrChain.newPtr]
    split_ifs
    · rw [isSource]
      rfl
    · rfl
  · rw [PtrChain.newPtr]
    split_ifs
    · rw [isSource]
      rfl
    · rfl

/-- The fold of an access through a chain that is replaced is sound when the spaces agree and
    the access admits the new one. -/
theorem replaced_iff (replaced : Replaced config ptr nptr pointed accessed new isUniform newUniform conversion)
    (isAccess : node.ptrOperand = some (ptr, withPtr)) (typed : checkType config node = .ok type) :
    SimplifiesSoundly config node ↔
      SpacesAgree conversion node.computesAddress accessed new ∧ node.Admits config isUniform accessed new := by
  cases node with
  | load p =>
      cases isAccess
      exact load_iff replaced typed
  | store p value =>
      cases isAccess
      exact (store_iff replaced typed).trans (and_iff_left trivial).symm
  | ptrCompositeElement p index =>
      cases isAccess
      exact (ptrCompositeElement_iff replaced typed).trans (and_iff_left trivial).symm
  | ptrArrayElementOffset p offset =>
      cases isAccess
      exact (ptrArrayElementOffset_iff replaced typed).trans (and_iff_left trivial).symm
  | call p args =>
      cases isAccess
      exact call_iff replaced typed
  | tailCall p args =>
      cases isAccess
      exact tailCall_iff replaced typed
  | source id isUniform type => cases isAccess
  | reinterpretOp dst operand => cases isAccess
  | convertOp dst operand => cases isAccess

end Accesses

theorem unfolded_sound {config : TypesConfig} {node : PtrNode} {type : IrType} (typed : checkType config node = .ok type)
    (folded : foldSimplifyPtrOperand config (createPtrNode config 0) node = .ok node) : SimplifiesSoundly config node :=
  ⟨0, node, type, type, folded, typed, typed, isSubtype_refl type, rfl, fun _ _ _ reached => reached⟩

/-- The operand of an access that passes the checks is a pointer. -/
theorem operand_typed {config : TypesConfig} {node ptr : PtrNode} {withPtr : PtrNode → PtrNode} {type : IrType}
    (isAccess : node.ptrOperand = some (ptr, withPtr)) (typed : checkType config node = .ok type) :
    ∃ isUniform pointed space isReference,
      checkType config ptr = .ok (.qualified isUniform (.ptr pointed space isReference)) := by
  have isPtr : ∀ {ptrType parts}, checkType config ptr = .ok ptrType → deconstructPtr ptrType = .ok parts →
      ∃ isUniform pointed space isReference,
        checkType config ptr = .ok (.qualified isUniform (.ptr pointed space isReference)) := by
    intro ptrType parts typedPtr isParts
    rw [typedPtr, deconstructPtr_ok.mp isParts]
    exact ⟨_, _, _, _, rfl⟩
  have isCallee : ∀ {ptrType args returnTypes}, checkType config ptr = .ok ptrType →
      checkValueCall ptrType args = .ok returnTypes → ∃ isUniform pointed space isReference,
        checkType config ptr = .ok (.qualified isUniform (.ptr pointed space isReference)) := by
    intro ptrType args returnTypes typedPtr called
    obtain ⟨pair, isPair, called⟩ := bind_eq_ok.mp called
    cases callee : pair.2 with
    | ptr pointed space isReference =>
        rw [typedPtr, deconstructQualifiedType_ok.mp isPair, callee]
        exact ⟨_, _, _, _, rfl⟩
    | _ =>
        simp only [callee] at called
        cases called
  cases node with
  | source id isUniform type => cases isAccess
  | reinterpretOp dst operand => cases isAccess
  | convertOp dst operand => cases isAccess
  | call p args =>
      cases isAccess
      obtain ⟨ptrType, typedPtr, called⟩ := bind_eq_ok.mp typed
      obtain ⟨_, called, -⟩ := bind_eq_ok.mp called
      exact isCallee typedPtr called
  | tailCall p args =>
      cases isAccess
      obtain ⟨ptrType, typedPtr, called⟩ := bind_eq_ok.mp typed
      obtain ⟨_, called, -⟩ := bind_eq_ok.mp called
      exact isCallee typedPtr called
  | _ =>
      cases isAccess
      obtain ⟨ptrType, typedPtr, checked⟩ := bind_eq_ok.mp typed
      obtain ⟨_, isParts, -⟩ := bind_eq_ok.mp checked
      exact isPtr typedPtr isParts

theorem touched_iff {config : TypesConfig} {node ptr : PtrNode} {withPtr : PtrNode → PtrNode} {type pointed : IrType}
    {isUniform : Bool} {accessed : AddressSpace} {chain : PtrChain} (typed : checkType config node = .ok type)
    (isAccess : node.ptrOperand = some (ptr, withPtr)) (casts : ptr.isCastChain = true)
    (typedPtr : checkType config ptr = .ok (.qualified isUniform (.ptr pointed accessed false)))
    (isChain : ptrChain config ptr = some chain) (touched : ¬ chain.Untouched) :
    SimplifiesSoundly config node ↔ node.FoldsWell config := by
  obtain ⟨sourceUniform, sourceType, typedSource, -, castable, width, -⟩ := ptrChain_typed typedPtr isChain
  have well_iff : node.FoldsWell config ↔ chain.CastLegal accessed pointed sourceType ∧
      SpacesAgree chain.conversion node.computesAddress accessed (chain.newSpace accessed pointed sourceType) ∧
      node.Admits config isUniform accessed (chain.newSpace accessed pointed sourceType) := by
    constructor
    · intro well
      obtain ⟨chain', found, untouched | ⟨_, _, typedSource', rest⟩⟩ := well ptr withPtr _ _ _ isAccess typedPtr
      · rw [isChain] at found
        cases found
        exact absurd untouched touched
      · rw [isChain] at found
        cases found
        rw [typedSource] at typedSource'
        cases typedSource'
        exact rest
    · intro rest ptr' withPtr' _ _ _ access typed'
      rw [isAccess] at access
      cases access
      rw [typedPtr] at typed'
      cases typed'
      exact ⟨chain, isChain, .inr ⟨sourceUniform, sourceType, typedSource, rest⟩⟩
  rw [well_iff]
  by_cases legal : chain.CastLegal accessed pointed sourceType
  · rw [and_iff_right legal]
    exact replaced_iff (replaced_of_chain casts typedPtr isChain touched typedSource legal) isAccess typed
  · refine iff_of_false (fun sound => ?_) fun rest => legal rest.1
    obtain ⟨fuel, result, _, _, folded, -⟩ := sound
    rw [foldSimplifyPtrOperand, isAccess] at folded
    obtain ⟨found, simplified, -⟩ := bind_eq_ok.mp folded
    have other : ¬ pointsTo pointed sourceType = true := by
      intro same
      obtain ⟨space, isReference, rfl⟩ := pointsTo_iff.mp same
      exact legal (.inl rfl)
    rw [simplifyPtrOperand_touched _ typedPtr isChain touched typedSource, if_neg other] at simplified
    cases fuel with
    | zero => cases simplified
    | succ fuel =>
        cases created : createPtrNode config (fuel + 1) (.reinterpretOp (.ptr pointed (chain.srcAs accessed) false) chain.source) with
        | error e =>
            rw [created] at simplified
            cases simplified
        | ok node' =>
            obtain ⟨castType, castTyped, -⟩ := bind_eq_ok.mp created
            obtain ⟨operandType, typedOperand, cast⟩ := bind_eq_ok.mp castTyped
            obtain ⟨_, _, rfl, -, isLegal, -⟩ := checkCast_ok.mp cast
            rw [typedSource] at typedOperand
            cases typedOperand
            exact legal ((newPtr_cast castable width other).mp isLegal)

/-- The fold of a pointer operand is sound exactly when the node folds well. -/
theorem simplifiesSoundly_iff (config : TypesConfig) (node : PtrNode) (type : IrType) (typed : checkType config node = .ok type)
    (casts : ∀ ptr withPtr, node.ptrOperand = some (ptr, withPtr) → ptr.isCastChain = true) :
    SimplifiesSoundly config node ↔ node.FoldsWell config := by
  cases isAccess : node.ptrOperand with
  | none =>
      refine iff_of_true (unfolded_sound typed ?_) fun _ _ _ _ _ access => ?_
      · rw [foldSimplifyPtrOperand, isAccess]
      · rw [isAccess] at access
        cases access
  | some access =>
      obtain ⟨ptr, withPtr⟩ := access
      obtain ⟨isUniform, pointed, accessed, isReference, typedPtr⟩ := operand_typed isAccess typed
      have alone : ∀ {create}, simplifyPtrOperand config create ptr = .ok none → foldSimplifyPtrOperand config create node = .ok node := by
        intro create simplified
        rw [foldSimplifyPtrOperand, isAccess]
        exact bind_eq_ok.mpr ⟨none, simplified, rfl⟩
      cases isReference with
      | true =>
          refine iff_of_true (unfolded_sound typed (alone (simplifyPtrOperand_reference _ typedPtr))) ?_
          intro ptr' withPtr' _ _ _ access typed'
          rw [isAccess] at access
          cases access
          rw [typedPtr] at typed'
          cases typed'
      | false =>
          cases isChain : ptrChain config ptr with
          | none =>
              refine iff_of_false (fun sound => ?_) fun well => ?_
              · obtain ⟨fuel, result, _, _, folded, -⟩ := sound
                rw [foldSimplifyPtrOperand, isAccess] at folded
                obtain ⟨found, simplified, -⟩ := bind_eq_ok.mp folded
                rw [simplifyPtrOperand_twice _ typedPtr isChain] at simplified
                cases simplified
              · obtain ⟨chain, found, -⟩ := well ptr withPtr isUniform pointed accessed isAccess typedPtr
                rw [isChain] at found
                cases found
          | some chain =>
              by_cases untouched : chain.Untouched
              · refine iff_of_true (unfolded_sound typed (alone (simplifyPtrOperand_untouched _ typedPtr isChain untouched))) ?_
                intro ptr' withPtr' _ _ _ access typed'
                rw [isAccess] at access
                cases access
                rw [typedPtr] at typed'
                cases typed'
                exact ⟨chain, isChain, .inl untouched⟩
              · exact touched_iff typed isAccess (casts ptr withPtr isAccess) typedPtr isChain untouched

/-! ## Casts back and forth -/

def simtTypes : TypesConfig := ⟨fun _ => true, .intTy64, true⟩

/-- A pointer to an integer in an address space. -/
def intPtr (space : AddressSpace) : IrType := .ptr (.int .intTy32 true) space false

/-- A load whose pointer is reinterpreted as one to a float and back. -/
def loadBackAndForth : PtrNode :=
  .load (.reinterpretOp (intPtr .global) (.reinterpretOp (.ptr (.float .floatTy32) .global false)
    (.source 0 false (intPtr .global))))

theorem loadBackAndForth_sound : SimplifiesSoundly simtTypes loadBackAndForth ∧ loadBackAndForth.FoldsWell simtTypes := by
  have sound_iff := simplifiesSoundly_iff simtTypes loadBackAndForth (.qualified false (.int .intTy32 true)) rfl (by
    intro ptr withPtr isAccess
    cases isAccess
    rfl)
  have well : loadBackAndForth.FoldsWell simtTypes := by
    intro ptr withPtr isUniform pointed accessed isAccess typed
    cases isAccess
    cases typed
    exact ⟨⟨.source 0 false (intPtr .global), 2, none⟩, rfl, .inr ⟨false, intPtr .global, rfl, .inl rfl, .inl rfl, nofun⟩⟩
  exact ⟨sound_iff.mpr well, well⟩

/-- A load whose pointer is converted to a generic one and back. -/
def loadThroughGeneric : PtrNode :=
  .load (.convertOp (intPtr .global) (.convertOp (intPtr .generic) (.source 0 false (intPtr .global))))

/-- The fold of a load through a generic pointer fails its assertion. -/
theorem loadThroughGeneric_fails :
    checkType simtTypes loadThroughGeneric = .ok (.qualified false (.int .intTy32 true)) ∧
      (∀ fuel, foldSimplifyPtrOperand simtTypes (createPtrNode simtTypes fuel) loadThroughGeneric =
        .error (.assertion "something should not be converted to generic twice!")) ∧
      ¬ SimplifiesSoundly simtTypes loadThroughGeneric := by
  have fails : ∀ fuel, foldSimplifyPtrOperand simtTypes (createPtrNode simtTypes fuel) loadThroughGeneric =
      .error (.assertion "something should not be converted to generic twice!") := fun _ => rfl
  refine ⟨rfl, fails, fun sound => ?_⟩
  obtain ⟨fuel, result, _, _, folded, -⟩ := sound
  rw [fails] at folded
  cases folded

end Shady
