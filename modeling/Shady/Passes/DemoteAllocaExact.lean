import Shady.FoldPtrExact
import Shady.Passes.DemoteAllocaEscapes

/-!
# When the demotion of allocations is sound

An access through casts of an address is rewritten to one of the allocation itself. It reaches
the same place as long as the casts do not leave the address space of the allocation.
-/

set_option autoImplicit false

namespace Shady.DemoteAlloca
open Fallible

/-! ## Functions that pass the checks -/

section Checks
variable (config : TypesConfig)

/-- `_shd_check_type_prim_op` accepts the value if it is a cast. -/
def castChecked : IrValue → Bool
  | .primOp .convert [dst] (.cons operand .nil) type =>
      checkCast config (IrType.isConversionLegal config) dst (operand.type config) |>.toOption.any fun checked => decide (checked = type)
  | .primOp .reinterpret [dst] (.cons operand .nil) type =>
      checkCast config (IrType.isReinterpretCastLegal config) dst (operand.type config) |>.toOption.any fun checked => decide (checked = type)
  | .primOp .convert _ _ _ => false
  | .primOp .reinterpret _ _ _ => false
  | _ => true

def instrChecked : Instr → Bool
  | .load _ ptr => (checkLoad config (ptr.type config)).toOption.isSome
  | .store ptr value => (checkStore config (ptr.type config) (value.type config)).toOption.isSome
  | _ => true

end Checks

/-- A function whose nodes have passed their checks. -/
structure CheckedFunction (config : TypesConfig) extends FunctionBody where
  casts : toFunctionBody.values.all (castChecked config) = true
  accesses : toFunctionBody.instrs.all (instrChecked config) = true

section Casts
variable {config : TypesConfig}

theorem toOption_any_eq {x : Except CheckError IrType} {type : IrType}
    (checked : (x.toOption.any fun result => decide (result = type)) = true) : x = .ok type := by
  cases x with
  | error e => cases checked
  | ok result => exact congrArg Except.ok (of_decide_eq_true checked)

/-- The address space that a value of a pointer type points into. -/
def pointerSpace : IrType → Option AddressSpace
  | .qualified _ (.ptr _ space _) => some space
  | _ => none

/-- Casts of pointers that lead to a value, with the address space of its type. -/
inductive TypedChain (config : TypesConfig) (alloc : Alloc) : IrValue → AddressSpace → Prop
  | alloc : TypedChain config alloc (.allocation alloc) alloc.kind.space
  | reinterpret {operand : IrValue} {src dst : AddressSpace} {types : List IrType} {type : IrType}
      (before : TypedChain config alloc operand src) (dstSpace : pointerSpace type = some dst)
      (generic : src = .generic ↔ dst = .generic) :
      TypedChain config alloc (.primOp .reinterpret types (.cons operand .nil) type) dst
  | convert {operand : IrValue} {src dst : AddressSpace} {types : List IrType} {type : IrType}
      (before : TypedChain config alloc operand src) (dstSpace : pointerSpace type = some dst) :
      TypedChain config alloc (.primOp .convert types (.cons operand .nil) type) dst

theorem TypedChain.space {alloc : Alloc} {v : IrValue} {space : AddressSpace} (typed : TypedChain config alloc v space) :
    pointerSpace (v.type config) = some space := by
  cases typed with
  | alloc => rfl
  | reinterpret before dstSpace generic => exact dstSpace
  | convert before dstSpace => exact dstSpace

theorem pointerSpace_some {type : IrType} {space : AddressSpace} (pointer : pointerSpace type = some space) :
    ∃ isUniform pointed isReference, type = .qualified isUniform (.ptr pointed space isReference) := by
  unfold pointerSpace at pointer
  split at pointer
  · cases pointer
    exact ⟨_, _, _, rfl⟩
  · cases pointer

/-- A legal cast between pointers goes from generic to generic ones or between specific ones. -/
theorem generic_of_reinterpret {srcPointed dstPointed : IrType} {src dst : AddressSpace} {srcReference dstReference : Bool}
    (legal : (IrType.ptr srcPointed src srcReference).isReinterpretCastLegal config (.ptr dstPointed dst dstReference) = .ok true) :
    src = .generic ↔ dst = .generic := by
  by_cases same : IrType.ptr srcPointed src srcReference = .ptr dstPointed dst dstReference
  · cases same
    exact Iff.rfl
  · obtain ⟨srcCast, dstCast, -, genericity⟩ := (isReinterpretCastLegal_ok same).mp legal
    have srcPhysical : srcReference = false := by
      simpa [IrType.isCastable, IrType.isArithmType, IrType.isPhysicalPtrType] using srcCast
    have dstPhysical : dstReference = false := by
      simpa [IrType.isCastable, IrType.isArithmType, IrType.isPhysicalPtrType] using dstCast
    subst srcPhysical dstPhysical
    have agree : decide (src = .generic) = decide (dst = .generic) := genericity rfl rfl
    simpa using agree

/-- Only pointers are converted to pointers. -/
theorem pointer_of_conversion {pointed dst : IrType} {src : AddressSpace} {isReference : Bool}
    (legal : (IrType.ptr pointed src isReference).isConversionLegal config dst = .ok true) : IrType.isPtr dst = true := by
  obtain ⟨_, -, legal⟩ := bind_eq_ok.mp legal
  dsimp only at legal
  split_ifs at legal with srcCast dstCast physical generic sign
  · cases pure_eq_ok.mp legal
  · cases pure_eq_ok.mp legal
  · cases pure_eq_ok.mp legal
  · cases pure_eq_ok.mp legal
  · cases pure_eq_ok.mp legal
  · have isReferenceNot : isReference = false := by
      simp [IrType.isArithmType, IrType.isPhysicalPtrType] at srcCast
      exact srcCast.1
    subst isReferenceNot
    cases dst <;> simp_all [IrType.isPhysicalPtrType, IrType.isPtr]

variable {f : FunctionBody} {alloc : Alloc}

theorem castChecked_reinterpret {types : List IrType} {operand : IrValue} {tail : IrValues} {type : IrType}
    (checked : castChecked config (.primOp .reinterpret types (.cons operand tail) type) = true) :
    ∃ dst, tail = .nil ∧ types = [dst] ∧
      checkCast config (IrType.isReinterpretCastLegal config) dst (operand.type config) = .ok type := by
  unfold castChecked at checked
  split at checked
  case h_2 dst operand type same =>
    cases same
    exact ⟨dst, rfl, rfl, toOption_any_eq checked⟩
  all_goals simp_all

theorem castChecked_convert {types : List IrType} {operand : IrValue} {tail : IrValues} {type : IrType}
    (checked : castChecked config (.primOp .convert types (.cons operand tail) type) = true) :
    ∃ dst, tail = .nil ∧ types = [dst] ∧
      checkCast config (IrType.isConversionLegal config) dst (operand.type config) = .ok type := by
  unfold castChecked at checked
  split at checked
  case h_1 dst operand type same =>
    cases same
    exact ⟨dst, rfl, rfl, toOption_any_eq checked⟩
  all_goals simp_all

/-- The analysis stops at anything that is no pointer. -/
theorem pointer_of_visit {fuel : Nat} {v : IrValue} {k k' : AllocaInfo} (run : visitPtrUses config f fuel v k = .ok k') :
    ∃ space, pointerSpace (v.type config) = some space := by
  cases fuel with
  | zero => cases run
  | succ fuel =>
      obtain ⟨parts, qualified, run⟩ := bind_eq_ok.mp run
      obtain ⟨_, pointer, -⟩ := bind_eq_ok.mp run
      rw [deconstructQualifiedType_ok.mp qualified]
      have isPtr := ensure_ok.mp pointer
      cases inner : parts.2 <;> simp_all [IrType.isPtr, pointerSpace]

/-- A cast of a pointer of the chain is one itself. -/
theorem TypedChain.cast {v u : IrValue} {space : AddressSpace} (typed : TypedChain config alloc v space)
    (checked : castChecked config u = true) (castTo : CastOf v u) {visit : IrValue → AllocaInfo → Except CheckError AllocaInfo}
    (pointers : ∀ w k k', visit w k = .ok k' → ∃ dst, pointerSpace (w.type config) = some dst) {k k' : AllocaInfo}
    (turn : visitUse visit v k (.value u) = .ok k') :
    (∃ dst, TypedChain config alloc u dst) ∧ ∃ s s', visit u s = .ok s' := by
  obtain ⟨isUniform, pointed, isReference, typeV⟩ := pointerSpace_some typed.space
  cases castTo with
  | convert types tail type =>
      obtain ⟨dst, rfl, rfl, check⟩ := castChecked_convert checked
      obtain ⟨_, src, srcType, -, legal, -, rfl⟩ := checkCast_ok.mp check
      rw [typeV] at srcType
      cases srcType
      have isPtr := pointer_of_conversion legal
      cases dst with
      | ptr dstPointed dstSpace dstReference => exact ⟨⟨dstSpace, .convert typed rfl⟩, _, _, turn⟩
      | _ => cases isPtr
  | reinterpret types tail type =>
      obtain ⟨dst, rfl, rfl, check⟩ := castChecked_reinterpret checked
      obtain ⟨_, src, srcType, -, legal, -, rfl⟩ := checkCast_ok.mp check
      rw [typeV] at srcType
      cases srcType
      obtain ⟨dstSpace, pointer⟩ := pointers _ _ _ turn
      obtain ⟨_, dstPointed, dstReference, same⟩ := pointerSpace_some pointer
      cases same
      exact ⟨⟨dstSpace, .reinterpret typed rfl (generic_of_reinterpret legal)⟩, _, _, turn⟩

theorem typed_of_visit (checked : ∀ v ∈ f.values, castChecked config v = true) {fuel : Nat} {v w : IrValue}
    {k k' : AllocaInfo} (run : visitPtrUses config f fuel v k = .ok k') {space : AddressSpace}
    (typed : TypedChain config alloc v space) (chain : CastChain f v w) : ∃ dst, TypedChain config alloc w dst := by
  induction fuel generalizing v k k' space with
  | zero => cases run
  | succ fuel ih =>
      cases chain with
      | refl => exact ⟨space, typed⟩
      | @cast _ u _ castTo used rest =>
          obtain ⟨_, -, run⟩ := bind_eq_ok.mp run
          obtain ⟨_, -, run⟩ := bind_eq_ok.mp run
          have turns := (foldlM_each (fun _ _ => True)
            (fun use _ => ∃ s s', visitUse (visitPtrUses config f fuel) v s use = .ok s')
            (fun _ => trivial) (fun _ _ => trivial) (fun _ _ _ turn _ => turn)
            (fun use _ s s' step => ⟨trivial, s, s', step⟩) run).2
          obtain ⟨s, s', turn⟩ := turns (.value u) (mem_usesOf_value.mpr ⟨used, castTo.operand⟩)
          obtain ⟨⟨dst, typedU⟩, k, k', runU⟩ := typed.cast (checked u used) castTo (fun _ _ _ => pointer_of_visit) turn
          exact ih runU typedU rest

end Casts

/-! ## Places -/

section Places
variable (config : TypesConfig) {Bits : Type} (format : GenericFormat Bits)

/-- The bits of a pointer that is cast from an allocation at an address. -/
def ptrBits (address : Bits) : IrValue → Option Bits
  | .allocation _ => some address
  | .primOp .reinterpret _ (.cons operand _) _ => ptrBits address operand
  | .primOp .convert _ (.cons operand _) type => do
      let src ← pointerSpace (operand.type config)
      let dst ← pointerSpace type
      let place ← format.locate src (← ptrBits address operand)
      format.hold dst (← convertPlace src dst place)
  | _ => none

/-- The place that an access through the pointer reaches. -/
def ptrPlace (address : Bits) (ptr : IrValue) : Option (AddressSpace × Bits) := do
  format.locate (← pointerSpace (ptr.type config)) (← ptrBits config format address ptr)

/-- Where a conversion takes a place. -/
def convertedSpace (src dst space : AddressSpace) : Option AddressSpace :=
  if dst = .generic then some space
  else if src = .generic then if space = dst then some dst else none
  else some dst

/-- The address space of that place, where the casts are defined. -/
def reachedSpace : IrValue → Option AddressSpace
  | .allocation alloc => some alloc.kind.space
  | .primOp .reinterpret _ (.cons operand _) type => do
      let space ← reachedSpace operand
      let dst ← pointerSpace type
      return if dst = .generic then space else dst
  | .primOp .convert _ (.cons operand _) type => do
      let space ← reachedSpace operand
      let src ← pointerSpace (operand.type config)
      let dst ← pointerSpace type
      convertedSpace src dst space
  | _ => none

variable {config format} {alloc : Alloc}

theorem kind_specific (kind : AllocKind) : kind.space ≠ .generic := by
  cases kind <;> simp [AllocKind.space]

theorem ptrPlace_eq {v : IrValue} {space : AddressSpace} (typed : TypedChain config alloc v space) (address : Bits) :
    ptrPlace config format address v = (ptrBits config format address v).bind (format.locate space) := by
  rw [ptrPlace, typed.space]
  rfl

theorem ptrBits_convert {operand : IrValue} {src dst : AddressSpace} {types : List IrType} {type : IrType}
    (before : TypedChain config alloc operand src) (dstSpace : pointerSpace type = some dst) (address : Bits) :
    ptrBits config format address (.primOp .convert types (.cons operand .nil) type) =
      (ptrPlace config format address operand).bind fun place => (convertPlace src dst place).bind (format.hold dst) := by
  rw [ptrPlace_eq before, ptrBits, before.space, dstSpace, Option.bind_assoc]
  rfl

theorem reachedSpace_reinterpret {operand : IrValue} {dst : AddressSpace} {types : List IrType} {tail : IrValues}
    {type : IrType} (dstSpace : pointerSpace type = some dst) :
    reachedSpace config (.primOp .reinterpret types (.cons operand tail) type) =
      (reachedSpace config operand).map fun space => if dst = .generic then space else dst := by
  rw [reachedSpace, dstSpace]
  cases reachedSpace config operand <;> rfl

theorem converted_of_place {src dst : AddressSpace} {place reached : AddressSpace × Bits}
    (located : (((convertPlace src dst place).bind (format.hold dst)).bind (format.locate dst)) = some reached) :
    convertedSpace src dst place.1 = some reached.1 ∧ reached.2 = place.2 := by
  obtain ⟨held, holds, located⟩ := Option.bind_eq_some_iff.mp located
  obtain ⟨converted, conversion, holds⟩ := Option.bind_eq_some_iff.mp holds
  by_cases toGeneric : dst = .generic
  · subst toGeneric
    cases conversion
    rw [locate_generic, format.decode_encode _ _ _ holds] at located
    cases located
    exact ⟨rfl, rfl⟩
  · rw [GenericFormat.hold, if_neg toGeneric] at holds
    rw [locate_specific toGeneric] at located
    rw [convertPlace, if_neg toGeneric] at conversion
    cases holds
    cases located
    rw [convertedSpace, if_neg toGeneric]
    split_ifs at conversion ⊢ with fromGeneric same
    · cases conversion
      exact ⟨rfl, rfl⟩
    · cases conversion
      exact ⟨rfl, rfl⟩

/-- Along a chain of casts, the address stays the same, and the address space is tracked. -/
theorem reached_of_place {v : IrValue} {space : AddressSpace} (typed : TypedChain config alloc v space) {address : Bits}
    {place : AddressSpace × Bits} (located : ptrPlace config format address v = some place) :
    reachedSpace config v = some place.1 ∧ place.2 = address := by
  induction typed generalizing place with
  | alloc =>
      rw [ptrPlace_eq .alloc, ptrBits, Option.bind_some, locate_specific (kind_specific _)] at located
      cases located
      exact ⟨rfl, rfl⟩
  | @reinterpret operand src dst types type before dstSpace generic ih =>
      rw [ptrPlace_eq (before.reinterpret dstSpace generic), ptrBits] at located
      rw [reachedSpace_reinterpret dstSpace]
      by_cases toGeneric : dst = .generic
      · rw [toGeneric, ← generic.mpr toGeneric, ← ptrPlace_eq before] at located
        rw [(ih located).1, Option.map_some, if_pos toGeneric]
        exact ⟨rfl, (ih located).2⟩
      · have specific : src ≠ .generic := fun same => toGeneric (generic.mp same)
        obtain ⟨bits, ofOperand, located⟩ := Option.bind_eq_some_iff.mp located
        rw [locate_specific toGeneric] at located
        cases located
        have locatedBefore : ptrPlace config format address operand = some (src, bits) := by
          rw [ptrPlace_eq before, ofOperand, Option.bind_some, locate_specific specific]
        rw [(ih locatedBefore).1, Option.map_some, if_neg toGeneric]
        exact ⟨rfl, (ih locatedBefore).2⟩
  | @convert operand src dst types type before dstSpace ih =>
      rw [ptrPlace_eq (before.convert dstSpace), ptrBits_convert before dstSpace, Option.bind_assoc] at located
      obtain ⟨between, locatedBefore, located⟩ := Option.bind_eq_some_iff.mp located
      have converted := converted_of_place located
      rw [reachedSpace, (ih locatedBefore).1, before.space, dstSpace, converted.2]
      exact ⟨converted.1, (ih locatedBefore).2⟩

/-- Where all places have generic pointers, the casts are defined as far as their spaces agree. -/
theorem place_of_reached {v : IrValue} {space : AddressSpace} (typed : TypedChain config alloc v space) :
    ptrPlace config nestedFormat [] v = (reachedSpace config v).map fun reached => (reached, []) := by
  induction typed with
  | alloc =>
      rw [ptrPlace_eq .alloc, ptrBits, Option.bind_some, locate_specific (kind_specific _)]
      rfl
  | @reinterpret operand src dst types type before dstSpace generic ih =>
      rw [ptrPlace_eq (before.reinterpret dstSpace generic), ptrBits, reachedSpace_reinterpret dstSpace]
      rw [ptrPlace_eq before] at ih
      by_cases toGeneric : dst = .generic
      · simp only [toGeneric, if_true, Option.map_map]
        rw [← generic.mpr toGeneric, ih]
        rfl
      · have specific : src ≠ .generic := fun same => toGeneric (generic.mp same)
        have located : ∀ space, space ≠ AddressSpace.generic → nestedFormat.locate space = fun bits => some (space, bits) :=
          fun space other => funext (locate_specific other)
        rw [located src specific] at ih
        rw [located dst toGeneric]
        simp only [if_neg toGeneric, Option.map_map]
        cases bits : ptrBits config nestedFormat [] operand <;>
          cases reached : reachedSpace config operand <;> simp_all
  | @convert operand src dst types type before dstSpace ih =>
      rw [ptrPlace_eq (before.convert dstSpace), ptrBits_convert before dstSpace, ih, reachedSpace, before.space, dstSpace]
      cases reached : reachedSpace config operand with
      | none => rfl
      | some space =>
          simp only [Option.map_some, Option.bind_some, Option.bind_eq_bind, convertPlace, convertedSpace]
          by_cases toGeneric : dst = .generic
          · subst toGeneric
            rfl
          · rw [if_neg toGeneric, if_neg toGeneric]
            split_ifs with fromGeneric same
            · subst same
              simp [GenericFormat.hold, toGeneric, locate_specific]
            · rfl
            · simp [GenericFormat.hold, toGeneric, locate_specific]

end Places

/-! ## The claim and its condition -/

section Claims
variable (config : TypesConfig) (f : FunctionBody) (weaken : Bool)

/-- The address is only used by loads and stores through it. -/
def UsedByAccessesOnly (alloc : Alloc) : Prop :=
  ∀ use ∈ f.usesOf (.allocation alloc),
    match use with
    | .instr (.load _ _) => True
    | .instr (.store _ value) => value ≠ .allocation alloc
    | _ => False

/-- The address is no operand of an operator that the analysis does not follow. -/
def NeverOperand (alloc : Alloc) : Prop :=
  ∀ op types operands type, IrValue.primOp op types operands type ∈ f.values → op.Unfollowed →
    .allocation alloc ∉ operands.toList

/-- Sizes in memory that agree with those that the compiler knows. -/
def SizesAgree (sizes : IrType → Nat) : Prop := ∀ type width, type.bitwidth config = some width → sizes type = width

/-- A recreated allocation is where the original one is; an undefined one is nowhere. -/
def RewrittenAccess.place {Bits : Type} (access : RewrittenAccess) (address : Bits) : Option (AddressSpace × Bits) :=
  match access.new with
  | .recreated => some (access.alloc.kind.space, address)
  | _ => none

/-- The new load passes its checks and reads what the original one reads. -/
def LoadKept (ptr : IrValue) : Prop :=
  ∀ access, rewrittenAccess config f weaken ptr = .ok (some access) →
    (∃ type, createLoad config access = .ok type) ∧
      ∀ (Bits : Type) (format : GenericFormat Bits) (address : Bits) (sizes : IrType → Nat) place,
        SizesAgree config sizes → ptrPlace config format address ptr = some place →
        ∀ contents : AddressSpace × Bits → Nat → List Bool,
          (access.place address).map (fun new => contents new (sizes access.alloc.type)) =
            some (contents place (sizes access.accessType))

/-- The new store passes its checks and, unless nothing reads from the allocation, writes to the
place that the original one writes to. -/
def StoreKept (ptr value : IrValue) : Prop :=
  ∀ access, rewrittenAccess config f weaken ptr = .ok (some access) →
    (∃ type, createStore config access value = .ok type) ∧
      (access.new ≠ .undef → ∀ (Bits : Type) (format : GenericFormat Bits) (address : Bits) place,
        ptrPlace config format address ptr = some place → access.place address = some place)

/-- The casts of a rewritten access stay in the address space, or are undefined there. -/
def StaysInSpace (access : RewrittenAccess) (ptr : IrValue) : Prop :=
  ∀ space, reachedSpace config ptr = some space → space = access.alloc.kind.space

/-- The types of a rewritten load are the same, or have a width. -/
def LoadCompatible (ptr : IrValue) : Prop :=
  ∀ access, rewrittenAccess config f weaken ptr = .ok (some access) →
    StaysInSpace config access ptr ∧
      (reachedSpace config ptr = none ∨ access.accessType = access.alloc.type ∨ (access.alloc.type.bitwidth config).isSome = true)

/-- What a rewritten store takes can be cast to the type of the access, which can be stored as
the type of the allocation. -/
def StoreCompatible (ptr value : IrValue) : Prop :=
  ∀ access, rewrittenAccess config f weaken ptr = .ok (some access) →
    (access.new ≠ .undef → StaysInSpace config access ptr) ∧
      access.alloc.type.isSubtype access.accessType = true ∧
      ∃ isUniform type, value.type config = .qualified isUniform type ∧
        type.isReinterpretCastLegal config access.accessType = .ok true

/-- What becomes undefined is not used, what is weakened is only accessed, and the accesses that
are rewritten do what they did. -/
structure DemotesSoundly : Prop where
  undefined : ∀ alloc, handleAlloc config f weaken alloc = .ok .undef → NeverReadNorEscapes f alloc
  weakened : ∀ alloc, handleAlloc config f weaken alloc = .ok .localAlloc → UsedByAccessesOnly f alloc
  loads : ∀ id ptr, .load id ptr ∈ f.instrs → LoadKept config f weaken ptr
  stores : ∀ ptr value, .store ptr value ∈ f.instrs → StoreKept config f weaken ptr value

/-- The operators that are not followed do not matter, and the types of the accesses fit. -/
structure DemotionFits : Prop where
  undefined : ∀ alloc, handleAlloc config f weaken alloc = .ok .undef → NeverThroughOperator f alloc
  weakened : ∀ alloc, handleAlloc config f weaken alloc = .ok .localAlloc → NeverOperand f alloc
  loads : ∀ id ptr, .load id ptr ∈ f.instrs → LoadCompatible config f weaken ptr
  stores : ∀ ptr value, .store ptr value ∈ f.instrs → StoreCompatible config f weaken ptr value

end Claims

section Exact
variable {config : TypesConfig} {f : FunctionBody} {weaken : Bool} {alloc : Alloc}

/-! ### Weakened allocations -/

theorem handleAlloc_localAlloc (weakened : handleAlloc config f weaken alloc = .ok .localAlloc) :
    ∃ k, allocaInfo config f alloc = .ok k ∧ k.leaks = false ∧ k.nonLogicalUse = false := by
  obtain ⟨k, analysed, decided⟩ := bind_eq_ok.mp weakened
  refine ⟨k, analysed, ?_⟩
  split_ifs at decided with unused logical
  · cases decided
  · simp only [Bool.and_eq_true, Bool.not_eq_true'] at logical
    exact ⟨logical.1.1, logical.1.2⟩
  · cases decided

theorem noted_of_analysis {k : AllocaInfo} (analysed : allocaInfo config f alloc = .ok k) (tight : k.leaks = false)
    {use : Use} (listed : use ∈ f.usesOf (.allocation alloc)) : Noted (.allocation alloc) k use := by
  cases (visitPtrUses_notes analysed).2 _ (.refl _) with
  | inl leaks =>
      rw [tight] at leaks
      cases leaks
  | inr noted => exact noted use listed

theorem usedByAccessesOnly_iff (weakened : handleAlloc config f weaken alloc = .ok .localAlloc) :
    UsedByAccessesOnly f alloc ↔ NeverOperand f alloc := by
  obtain ⟨k, analysed, tight, logical⟩ := handleAlloc_localAlloc weakened
  constructor
  · intro only op types operands type used _ operand
    exact only (.value _) (mem_usesOf_value.mpr ⟨used, operand⟩)
  · intro never use listed
    have noted := noted_of_analysis analysed tight listed
    cases use with
    | terminator => exact absurd noted (by simp [Noted, tight])
    | instr user =>
        cases user with
        | load id ptr => trivial
        | store ptr value =>
            intro same
            have leaks := noted same.symm
            rw [tight] at leaks
            cases leaks
        | alloc other => exact absurd noted (by simp [Noted, tight])
        | other id operands => exact absurd noted (by simp [Noted, tight])
    | value user =>
        obtain ⟨used, operand⟩ := mem_usesOf_value.mp listed
        cases user with
        | primOp op types operands type =>
            refine never op types operands type used ⟨?_, ?_, ?_⟩ operand
            · rintro rfl
              simpa [tight, logical] using noted.1 (.inr rfl)
            · rintro rfl
              simpa [tight, logical] using noted.1 (.inl rfl)
            · by_contra effects
              have leaks := noted.2 (by simpa using effects)
              rw [tight] at leaks
              cases leaks
        | source id type => cases operand
        | allocation other => cases operand
        | composite contents type => exact absurd noted (by simp [Noted, tight])
        | ptrCompositeElement ptr index type => exact absurd noted (by simp [Noted, tight])
        | ptrArrayElementOffset ptr offset type => exact absurd noted (by simp [Noted, tight])

/-! ### Rewritten accesses -/

/-- What is known of an access that is rewritten. -/
structure Rewrites (config : TypesConfig) (f : FunctionBody) (weaken : Bool) (ptr : IrValue) (access : RewrittenAccess) : Prop where
  source : getPtrSourceKnowledge ptr = some access.alloc
  handled : handleAlloc config f weaken access.alloc = .ok access.new
  accessed : ∃ isUniform space isReference, ptr.type config = .qualified isUniform (.ptr access.accessType space isReference)
  legal : access.accessType.isReinterpretCastLegal config access.alloc.type = .ok true
  other : rewritesToAlloc config access.alloc access.new ptr = false

theorem rewrites_of_ok {ptr : IrValue} {access : RewrittenAccess}
    (rewritten : rewrittenAccess config f weaken ptr = .ok (some access)) : Rewrites config f weaken ptr access := by
  unfold rewrittenAccess at rewritten
  cases source : getPtrSourceKnowledge ptr with
  | none =>
      rw [source] at rewritten
      cases rewritten
  | some alloc =>
      rw [source] at rewritten
      obtain ⟨new, handled, rewritten⟩ := bind_eq_ok.mp rewritten
      obtain ⟨parts, accessed, rewritten⟩ := bind_eq_ok.mp rewritten
      obtain ⟨legal, isLegal, rewritten⟩ := bind_eq_ok.mp rewritten
      split_ifs at rewritten with castable vanishes
      · cases pure_eq_ok.mp rewritten
      · cases pure_eq_ok.mp rewritten
        subst castable
        exact ⟨source, handled, ⟨_, _, _, deconstructPtr_ok.mp accessed⟩, isLegal, by simpa using vanishes⟩
      · cases pure_eq_ok.mp rewritten

theorem Rewrites.typed {ptr : IrValue} {access : RewrittenAccess} (rewrites : Rewrites config f weaken ptr access)
    (checked : ∀ v ∈ f.values, castChecked config v = true) (used : ptr ∈ f.values) :
    ∃ space, TypedChain config access.alloc ptr space := by
  obtain ⟨k, analysed, -⟩ := bind_eq_ok.mp rewrites.handled
  exact typed_of_visit checked analysed .alloc (castChain_of_source rewrites.source used)

/-- Casts keep an allocation from being weakened. -/
theorem Rewrites.not_weakened {ptr : IrValue} {access : RewrittenAccess} (rewrites : Rewrites config f weaken ptr access)
    (used : ptr ∈ f.values) : access.new ≠ .localAlloc := by
  intro isLocal
  have handled := rewrites.handled
  rw [isLocal] at handled
  obtain ⟨k, analysed, tight, logical⟩ := handleAlloc_localAlloc handled
  cases castChain_of_source rewrites.source used with
  | refl => exact absurd rewrites.other (by simp [rewritesToAlloc])
  | @cast _ u _ castTo usedU rest =>
      have noted := noted_of_analysis analysed tight (mem_usesOf_value.mpr ⟨usedU, castTo.operand⟩)
      cases castTo with
      | convert types tail type => simpa [tight, logical] using noted.1 (.inr rfl)
      | reinterpret types tail type => simpa [tight, logical] using noted.1 (.inl rfl)

/-- An undefined allocation is not loaded from. -/
theorem Rewrites.not_undef {id : Nat} {ptr : IrValue} {access : RewrittenAccess}
    (rewrites : Rewrites config f weaken ptr access) (used : ptr ∈ f.values) (loaded : .load id ptr ∈ f.instrs) :
    access.new ≠ .undef := by
  intro isUndef
  have handled := rewrites.handled
  rw [isUndef] at handled
  obtain ⟨k, analysed, tight, unread⟩ := handleAlloc_undef handled
  have noted := noted_of_source analysed tight rewrites.source used
    (mem_usesOf_instr.mpr ⟨loaded, List.mem_cons_self⟩)
  have read : k.readFrom = true := noted
  rw [unread] at read
  cases read

theorem reinterpretLegal_symm {src dst : IrType} (legal : src.isReinterpretCastLegal config dst = .ok true) :
    dst.isReinterpretCastLegal config src = .ok true := by
  by_cases same : src = dst
  · exact same ▸ legal
  · obtain ⟨srcCast, dstCast, width, genericity⟩ := (isReinterpretCastLegal_ok same).mp legal
    apply (isReinterpretCastLegal_ok (Ne.symm same)).mpr
    exact ⟨dstCast, srcCast, width.symm, fun dstPtr srcPtr => (genericity srcPtr dstPtr).symm⟩

theorem dataTypes_of_legal {src dst : IrType} (legal : src.isReinterpretCastLegal config dst = .ok true) :
    src.isDataType = true ∧ dst.isDataType = true := by
  obtain ⟨_, checked, -⟩ := bind_eq_ok.mp legal
  simpa using ensure_ok.mp checked

/-- The pointed type of the new node and whether it is uniform. -/
theorem newType_eq (config : TypesConfig) (access : RewrittenAccess) : ∃ isUniform space isReference,
    access.new.type config access.alloc = .qualified isUniform (.ptr access.alloc.type space isReference) ∧
      (config.isSimt || (isUniform && config.isAddrSpaceUniform space)) = true := by
  have uniform : ∀ kind : AllocKind, (config.isSimt || config.isAddrSpaceUniform kind.space) = true := by
    intro kind
    cases kind <;> simp [AllocKind.space, TypesConfig.isAddrSpaceUniform]
  cases access.new with
  | undef => exact ⟨_, _, _, rfl, by simpa using uniform access.alloc.kind⟩
  | localAlloc => exact ⟨_, _, _, rfl, by simpa using uniform .localAlloc⟩
  | recreated => exact ⟨_, _, _, rfl, by simpa using uniform access.alloc.kind⟩

theorem createLoad_ok {access : RewrittenAccess}
    (legal : access.accessType.isReinterpretCastLegal config access.alloc.type = .ok true) :
    ∃ type, createLoad config access = .ok type := by
  obtain ⟨isUniform, space, isReference, newType, uniform⟩ := newType_eq config access
  obtain ⟨accessData, allocData⟩ := dataTypes_of_legal legal
  have loads : checkLoad config (access.new.type config access.alloc) =
      .ok (.qualified (isUniform && config.isAddrSpaceUniform space) access.alloc.type) :=
    bind_eq_ok.mpr ⟨(isUniform, access.alloc.type, space, isReference), deconstructPtr_ok.mpr newType,
      qualifiedType_ok.mpr ⟨allocData, uniform, rfl⟩⟩
  have casts := checkCast_ok.mpr ⟨_, _, rfl, accessData, reinterpretLegal_symm legal, uniform, rfl⟩
  exact ⟨_, bind_eq_ok.mpr ⟨_, loads, casts⟩⟩

theorem isSubtype_qualified_iff {superUniform isUniform : Bool} {super type : IrType} :
    (IrType.qualified superUniform super).isSubtype (.qualified isUniform type) = true ↔
      (superUniform = true → isUniform = true) ∧ super.isSubtype type = true := by
  rw [IrType.isSubtype]
  by_cases same : IrType.qualified isUniform type = .qualified superUniform super
  · cases same
    simp [isSubtype_refl]
  · rw [decide_eq_false same]
    cases superUniform <;> cases isUniform <;> simp

theorem checkStore_ok {isUniform isReference : Bool} {pointed valueType : IrType} {space : AddressSpace}
    (data : pointed.isDataType = true) :
    (∃ type, checkStore config (.qualified isUniform (.ptr pointed space isReference)) valueType = .ok type) ↔
      ∃ valueUniform stored, valueType = .qualified valueUniform stored ∧ (config.isSimt || valueUniform) = true ∧
        pointed.isSubtype stored = true := by
  have expected : qualifiedType config (!config.isSimt) pointed = .ok (.qualified (!config.isSimt) pointed) :=
    qualifiedType_ok.mpr ⟨data, by cases config.isSimt <;> rfl, rfl⟩
  constructor
  · intro succeeds
    obtain ⟨type, ok⟩ := succeeds
    obtain ⟨parts, deconstructed, ok⟩ := bind_eq_ok.mp ok
    cases deconstructed
    obtain ⟨expectedType, isExpected, ok⟩ := bind_eq_ok.mp ok
    rw [expected] at isExpected
    cases isExpected
    obtain ⟨_, subtype, -⟩ := bind_eq_ok.mp ok
    have isSubtype := ensure_ok.mp subtype
    cases valueType with
    | qualified valueUniform stored =>
        obtain ⟨uniform, inner⟩ := isSubtype_qualified_iff.mp isSubtype
        refine ⟨valueUniform, stored, rfl, ?_, inner⟩
        cases simt : config.isSimt with
        | true => rfl
        | false => simpa [simt] using uniform
    | _ => simp [IrType.isSubtype] at isSubtype
  · intro fits
    obtain ⟨valueUniform, stored, rfl, uniform, inner⟩ := fits
    have subtype : (IrType.qualified (!config.isSimt) pointed).isSubtype (.qualified valueUniform stored) = true := by
      apply isSubtype_qualified_iff.mpr
      constructor
      · intro simt
        cases known : config.isSimt <;> simp_all
      · exact inner
    exact ⟨_, bind_eq_ok.mpr ⟨(isUniform, pointed, space, isReference), rfl,
      bind_eq_ok.mpr ⟨_, expected, bind_eq_ok.mpr ⟨(), ensure_ok.mpr subtype, rfl⟩⟩⟩⟩

/-- The store that replaces one that passed its check. -/
theorem createStore_ok {access : RewrittenAccess} {isUniform isReference : Bool} {space : AddressSpace}
    {ptr value : IrValue} (accessed : ptr.type config = .qualified isUniform (.ptr access.accessType space isReference))
    (legal : access.accessType.isReinterpretCastLegal config access.alloc.type = .ok true)
    (checked : ∃ type, checkStore config (ptr.type config) (value.type config) = .ok type) :
    (∃ type, createStore config access value = .ok type) ↔
      access.alloc.type.isSubtype access.accessType = true ∧
        ∃ isUniform type, value.type config = .qualified isUniform type ∧
          type.isReinterpretCastLegal config access.accessType = .ok true := by
  obtain ⟨accessData, allocData⟩ := dataTypes_of_legal legal
  obtain ⟨newUniform, newSpace, newReference, newType, -⟩ := newType_eq config access
  rw [accessed] at checked
  obtain ⟨valueUniform, stored, valueType, uniform, -⟩ := (checkStore_ok accessData).mp checked
  constructor
  · intro succeeds
    obtain ⟨type, ok⟩ := succeeds
    obtain ⟨dataType, cast, ok⟩ := bind_eq_ok.mp ok
    obtain ⟨castUniform, src, srcType, -, castLegal, -, rfl⟩ := checkCast_ok.mp cast
    rw [newType] at ok
    obtain ⟨_, _, same, -, subtype⟩ := (checkStore_ok allocData).mp ⟨type, ok⟩
    cases same
    exact ⟨subtype, castUniform, src, srcType, castLegal⟩
  · intro fits
    obtain ⟨subtype, castUniform, src, srcType, castLegal⟩ := fits
    have sameType : IrType.qualified valueUniform stored = .qualified castUniform src := valueType.symm.trans srcType
    cases sameType
    have stores : ∃ type, checkStore config
        (.qualified newUniform (.ptr access.alloc.type newSpace newReference))
        (.qualified valueUniform access.accessType) = .ok type :=
      (checkStore_ok allocData).mpr ⟨valueUniform, _, rfl, uniform, subtype⟩
    obtain ⟨type, stores⟩ := stores
    refine ⟨type, bind_eq_ok.mpr ⟨.qualified valueUniform access.accessType, ?_, ?_⟩⟩
    · exact checkCast_ok.mpr ⟨valueUniform, stored, valueType, accessData, castLegal, uniform, rfl⟩
    · rw [newType]
      exact stores

theorem Rewrites.place_eq {ptr : IrValue} {access : RewrittenAccess} (rewrites : Rewrites config f weaken ptr access)
    (used : ptr ∈ f.values) (defined : access.new ≠ .undef) {Bits : Type} (address : Bits) :
    access.place address = some (access.alloc.kind.space, address) := by
  have kept := rewrites.not_weakened used
  unfold RewrittenAccess.place
  cases new : access.new <;> simp_all

/-- The accesses reach the same places if and only if the casts stay in the address space. -/
theorem staysInSpace_iff {access : RewrittenAccess} {ptr : IrValue} {space : AddressSpace}
    (typed : TypedChain config access.alloc ptr space) :
    StaysInSpace config access ptr ↔ ∀ (Bits : Type) (format : GenericFormat Bits) (address : Bits) place,
      ptrPlace config format address ptr = some place → place = (access.alloc.kind.space, address) := by
  constructor
  · intro stays Bits format address place located
    obtain ⟨reached, same⟩ := reached_of_place typed located
    exact Prod.ext (stays _ reached) same
  · intro same reached isReached
    have located := place_of_reached typed
    rw [isReached, Option.map_some] at located
    exact congrArg Prod.fst (same _ nestedFormat [] _ located)

theorem usable_of_instr {instr : Instr} (member : instr ∈ f.instrs) {v : IrValue} (operand : v ∈ instr.operands) :
    v ∈ f.values := mem_values.mpr ⟨v, .inl ⟨instr, member, operand⟩, v.mem_parts_self⟩

theorem storeKept_iff (checked : ∀ v ∈ f.values, castChecked config v = true) {ptr value : IrValue}
    (stored : .store ptr value ∈ f.instrs)
    (checkedStore : ∃ type, checkStore config (ptr.type config) (value.type config) = .ok type) :
    StoreKept config f weaken ptr value ↔ StoreCompatible config f weaken ptr value := by
  have used : ptr ∈ f.values := usable_of_instr stored List.mem_cons_self
  apply forall_congr'
  intro access
  apply forall_congr'
  intro rewritten
  have rewrites := rewrites_of_ok rewritten
  obtain ⟨isUniform, space, isReference, accessed⟩ := rewrites.accessed
  obtain ⟨typeSpace, typed⟩ := rewrites.typed checked used
  have created := createStore_ok accessed rewrites.legal checkedStore
  constructor
  · intro kept
    constructor
    · intro defined
      apply (staysInSpace_iff typed).mpr
      intro Bits format address place located
      have same := kept.2 defined Bits format address place located
      rw [rewrites.place_eq used defined] at same
      exact (Option.some.inj same).symm
    · exact created.mp kept.1
  · intro fits
    constructor
    · exact created.mpr fits.2
    · intro defined Bits format address place located
      rw [rewrites.place_eq used defined, (staysInSpace_iff typed).mp (fits.1 defined) _ _ _ _ located]

/-- Sizes that agree with the widths, with a type that has none made larger. -/
noncomputable def sizesBut (config : TypesConfig) (other : IrType) (type : IrType) : Nat :=
  (type.bitwidth config).getD (if type = other then 1 else 0)

theorem sizesBut_agree (other : IrType) : SizesAgree config (sizesBut config other) := by
  intro type width known
  rw [sizesBut, known]
  rfl

theorem loadKept_iff (checked : ∀ v ∈ f.values, castChecked config v = true) {id : Nat} {ptr : IrValue}
    (loaded : .load id ptr ∈ f.instrs) : LoadKept config f weaken ptr ↔ LoadCompatible config f weaken ptr := by
  have used : ptr ∈ f.values := usable_of_instr loaded List.mem_cons_self
  apply forall_congr'
  intro access
  apply forall_congr'
  intro rewritten
  have rewrites := rewrites_of_ok rewritten
  obtain ⟨typeSpace, typed⟩ := rewrites.typed checked used
  have placed := fun {Bits : Type} (address : Bits) => rewrites.place_eq used (rewrites.not_undef used loaded) address
  constructor
  · intro kept
    obtain ⟨-, reads⟩ := kept
    -- contents that tell places and sizes apart
    have apart : ∀ {Bits : Type} (format : GenericFormat Bits) (address : Bits) sizes place,
        SizesAgree config sizes → ptrPlace config format address ptr = some place →
        place = (access.alloc.kind.space, address) ∧ sizes access.alloc.type = sizes access.accessType := by
      classical
      intro Bits format address sizes place agree located
      have same := reads Bits format address sizes place agree located
        fun at_ size => decide (at_ = place) :: List.replicate size true
      rw [placed, Option.map_some, Option.some.injEq, List.cons.injEq] at same
      constructor
      · simpa [eq_comm] using same.1
      · simpa using congrArg List.length same.2
    constructor
    · apply (staysInSpace_iff typed).mpr
      intro Bits format address place located
      exact (apart format address _ place (sizesBut_agree access.alloc.type) located).1
    · cases reached : reachedSpace config ptr with
      | none => exact .inl rfl
      | some space =>
          right
          by_contra differ
          rw [not_or, Bool.not_eq_true, Option.isSome_eq_false_iff, Option.isNone_iff_eq_none] at differ
          have located := place_of_reached typed
          rw [reached, Option.map_some] at located
          have same := (apart _ _ _ _ (sizesBut_agree access.alloc.type) located).2
          have width := ((isReinterpretCastLegal_ok differ.1).mp rewrites.legal).2.2.1
          rw [sizesBut, sizesBut, width, differ.2, if_pos rfl, if_neg differ.1] at same
          cases same
  · intro fits
    obtain ⟨stays, widths⟩ := fits
    constructor
    · exact createLoad_ok rewrites.legal
    · intro Bits format address sizes place agree located contents
      rw [placed, Option.map_some, (staysInSpace_iff typed).mp stays _ _ _ _ located]
      have sameSize : sizes access.alloc.type = sizes access.accessType := by
        by_cases same : access.accessType = access.alloc.type
        · rw [same]
        · have width := ((isReinterpretCastLegal_ok same).mp rewrites.legal).2.2.1
          rcases widths with undefined | equal | known
          · rw [(reached_of_place typed located).1] at undefined
            cases undefined
          · exact absurd equal same
          · obtain ⟨size, isSize⟩ := Option.isSome_iff_exists.mp known
            rw [agree _ _ isSize, agree _ _ (width.trans isSize)]
      rw [sameSize]

end Exact

/-! ## A pointer that is selected -/

/-- A memory that forgets everything. -/
def forgetful : Machine where
  Memory := Unit
  Holds := fun _ _ => False
  read := fun _ _ => .scalar 0
  write := fun _ _ _ => ()
  compute := fun _ _ _ => .scalar 0
  element := fun ptr _ => ptr
  offset := fun ptr _ => ptr
  other := fun _ _ _ => (.scalar 0, ())
  read_origins := fun _ _ _ held => nomatch held
  write_holds := fun _ _ _ _ holds => holds.elim
  compute_origins := fun _ _ _ => rfl
  element_origins := fun _ _ _ held => held
  offset_origins := fun _ _ _ held => held
  other_origins := fun _ _ _ _ held => held.elim (fun made => nomatch made) False.elim

/-- A variable of the function. -/
def variableAt (id : Nat) : Alloc := ⟨.stackAlloc, id, .int .intTy32 true⟩

/-- One of two variables, by a condition. -/
def selectedVariable : IrValue :=
  .primOp .select []
    (.cons (.source 0 (.qualified false .bool))
      (.cons (.allocation (variableAt 1)) (.cons (.allocation (variableAt 2)) .nil)))
    ((variableAt 1).ptrType simtTypes)

/-- Both variables are set, and the selected one is read and returned. -/
def readsSelected : CheckedFunction simtTypes where
  blocks := [
    { params := [0, 3]
      instrs := [.alloc (variableAt 1), .alloc (variableAt 2),
        .store (.allocation (variableAt 1)) (.source 3 (.qualified false (.int .intTy32 true))),
        .store (.allocation (variableAt 2)) (.source 3 (.qualified false (.int .intTy32 true))),
        .load 4 selectedVariable]
      operands := [.source 4 (.qualified false (.int .intTy32 true))]
      transfers := [] }]
  casts := by decide +kernel
  accesses := by decide +kernel

end Shady.DemoteAlloca
