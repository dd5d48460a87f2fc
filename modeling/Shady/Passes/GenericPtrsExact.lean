import Shady.Passes.GenericPtrs
import Shady.FoldPtrExact

/-!
# Generic pointers are tagged and recovered

A pointer is split into its upper bits and the rest below them. The generated code keeps the
rest, and what it does to the upper bits is a function on eight values. The mask that is meant to
clear them does so in pointers of 64 bits only.
-/

set_option autoImplicit false

namespace Shady.GenericPtrs

/-! ## Values of the generated nodes -/

section Nodes
variable {config : Config} {env : Env}

/-- The node computes an unsigned integer of the width of pointers. -/
structure Computes (config : Config) (env : Env) (node : Node) (n : Nat) : Prop where
  eval : eval env node = some (.int (genericPtrType config) n)
  small : n < 2 ^ config.ptrSize.bits

theorem wrap_of_lt {n : Nat} (small : n < 2 ^ config.ptrSize.bits) : (genericPtrType config).wrap n = n := by
  have pattern := pattern_natCast (genericPtrType config) n
  rw [show (genericPtrType config).width = config.ptrSize from rfl, Nat.mod_eq_of_lt small] at pattern
  exact pattern

theorem pattern_toNat {n : Nat} (small : n < 2 ^ config.ptrSize.bits) :
    ((genericPtrType config).pattern n).toNat = n := by
  rw [pattern_natCast, show (genericPtrType config).width = config.ptrSize from rfl, Nat.mod_eq_of_lt small]
  exact Int.toNat_natCast n

theorem Computes.evalInt {node : Node} {n : Nat} (computes : Computes config env node n) :
    evalInt env node = some (n : Int) := by
  rw [GenericPtrs.evalInt, computes.eval]

theorem computes_literal (config : Config) (env : Env) (value : BitVec 64) :
    Computes config env (sizeTLiteral config value) (value.toNat % 2 ^ config.ptrSize.bits) where
  eval := by
    have denotes : IntLiteral.denotes ⟨config.ptrSize, false, value⟩ =
        ((value.toNat % 2 ^ config.ptrSize.bits : Nat) : Int) :=
      pattern_natCast (genericPtrType config) value.toNat
    rw [sizeTLiteral, Shady.eval, denotes]
    rfl
  small := Nat.mod_lt _ (by positivity)

theorem computes_ptr (env : Env) {n : Nat} (small : n < 2 ^ config.ptrSize.bits) :
    Computes config (withPtr n env) (ptrParam config) n where
  eval := by
    rw [ptrParam, Shady.eval, show (withPtr n env).int 0 = (n : Int) from rfl, wrap_of_lt small]
  small := small

theorem Computes.and {left right : Node} {a b : Nat} (computesLeft : Computes config env left a)
    (computesRight : Computes config env right b) : Computes config env (.primOp2 .and left right) (a &&& b) := by
  have small : a &&& b < 2 ^ config.ptrSize.bits := Nat.and_le_left.trans_lt computesLeft.small
  refine ⟨?_, small⟩
  simp [Shady.eval, computesLeft.eval, computesRight.eval, evalPrimOp2, intOperator,
    pattern_toNat computesLeft.small, pattern_toNat computesRight.small, wrap_of_lt small]

theorem Computes.or {left right : Node} {a b : Nat} (computesLeft : Computes config env left a)
    (computesRight : Computes config env right b) : Computes config env (.primOp2 .or left right) (a ||| b) := by
  have small : a ||| b < 2 ^ config.ptrSize.bits := Nat.or_lt_two_pow computesLeft.small computesRight.small
  refine ⟨?_, small⟩
  simp [Shady.eval, computesLeft.eval, computesRight.eval, evalPrimOp2, intOperator,
    pattern_toNat computesLeft.small, pattern_toNat computesRight.small, wrap_of_lt small]

theorem Computes.rshift {left right : Node} {a amount : Nat} (computesLeft : Computes config env left a)
    (computesRight : Computes config env right amount) (inRange : amount < config.ptrSize.bits) :
    Computes config env (.primOp2 .rshiftLogical left right) (a / 2 ^ amount) := by
  have small : a / 2 ^ amount < 2 ^ config.ptrSize.bits := (Nat.div_le_self _ _).trans_lt computesLeft.small
  refine ⟨?_, small⟩
  have pattern : (genericPtrType config).pattern a = (a : Int) := by
    rw [pattern_natCast, show (genericPtrType config).width = config.ptrSize from rfl, Nat.mod_eq_of_lt computesLeft.small]
  have shifted : (a : Int) / 2 ^ amount = ((a / 2 ^ amount : Nat) : Int) := by push_cast; rfl
  have inType : amount < (genericPtrType config).width.bits := inRange
  simp [Shady.eval, computesLeft.eval, computesRight.eval, evalPrimOp2, intOperator, inType, pattern]
  rw [shifted, wrap_of_lt small]

theorem Computes.select {left right first second : Node} {a b x y : Nat} (computesLeft : Computes config env left a)
    (computesRight : Computes config env right b) (computesFirst : Computes config env first x)
    (computesSecond : Computes config env second y) :
    Computes config env (.primOp3 .select (.primOp2 .eq left right) first second) (if a = b then x else y) where
  eval := by
    by_cases same : a = b <;>
      simp [Shady.eval, computesLeft.eval, computesRight.eval, computesFirst.eval, computesSecond.eval, evalPrimOp2,
        evalPrimOp3, intOperator, comparison, same]
  small := by
    split
    · exact computesFirst.small
    · exact computesSecond.small

end Nodes

/-! ## Upper bits and the rest -/

/-- How many bits are left below a tag. -/
def Config.restBits (config : Config) : Nat := config.ptrSize.bits - genericPtrTagBitwidth

/-- An integer of the width of pointers with these upper bits, and the rest. -/
def Config.tagged (config : Config) (upper rest : Nat) : Nat := upper * 2 ^ config.restBits + rest

/-- What the mask leaves of the upper bits. -/
def Config.kept (config : Config) (upper : Nat) : Nat := if config.ptrSize = .intTy64 then 0 else upper

/-- The first bit below the tag. -/
def Config.signBit (config : Config) (rest : Nat) : Nat := rest / 2 ^ (config.restBits - 1)

section Bits
variable {config : Config} {env : Env} {upper rest : Nat}

theorem bits_eq (config : Config) : config.ptrSize.bits = config.restBits + 3 := by
  unfold Config.restBits
  cases config.ptrSize <;> rfl

theorem tagged_lt (upperSmall : upper < 8) (restSmall : rest < 2 ^ config.restBits) :
    config.tagged upper rest < 2 ^ config.ptrSize.bits := by
  rw [bits_eq, pow_add, Config.tagged]
  have above : upper * 2 ^ config.restBits ≤ 7 * 2 ^ config.restBits :=
    Nat.mul_le_mul_right _ (Nat.le_of_lt_succ upperSmall)
  omega

theorem signBit_cases (restSmall : rest < 2 ^ config.restBits) : config.signBit rest = 0 ∨ config.signBit rest = 1 := by
  have positive : config.restBits = (config.restBits - 1) + 1 := by
    unfold Config.restBits
    cases config.ptrSize <;> rfl
  have bound : config.signBit rest < 2 := by
    rw [positive, pow_succ, Nat.mul_comm] at restSmall
    exact Nat.div_lt_of_lt_mul (by rwa [Nat.mul_comm])
  omega

theorem tagged_or (other : Nat) (restSmall : rest < 2 ^ config.restBits) :
    config.tagged upper rest ||| other * 2 ^ config.restBits = config.tagged (upper ||| other) rest := by
  unfold Config.tagged
  rw [← Nat.shiftLeft_eq, ← Nat.shiftLeft_eq, ← Nat.shiftLeft_eq, Nat.shiftLeft_add_eq_or_of_lt restSmall,
    Nat.shiftLeft_add_eq_or_of_lt restSmall, Nat.shiftLeft_or_distrib]
  ac_rfl

theorem tagged_and_mask (upperSmall : upper < 8) (restSmall : rest < 2 ^ config.restBits) :
    config.tagged upper rest &&& (BitVec.allOnes 64 >>> genericPtrTagBitwidth).toNat % 2 ^ config.ptrSize.bits =
      config.tagged (config.kept upper) rest := by
  have small := tagged_lt upperSmall restSmall
  unfold Config.tagged Config.kept Config.restBits at *
  cases size : config.ptrSize <;> rw [size] at small restSmall
  · exact (Nat.and_two_pow_sub_one_eq_mod _ 8).trans (Nat.mod_eq_of_lt small)
  · exact (Nat.and_two_pow_sub_one_eq_mod _ 16).trans (Nat.mod_eq_of_lt small)
  · exact (Nat.and_two_pow_sub_one_eq_mod _ 32).trans (Nat.mod_eq_of_lt small)
  · refine (Nat.and_two_pow_sub_one_eq_mod _ 61).trans ?_
    simp [IntSizes.bits, IntSizes.sizeInBytes, genericPtrTagBitwidth] at restSmall ⊢
    omega

theorem tagged_div (restSmall : rest < 2 ^ config.restBits) :
    config.tagged upper rest / 2 ^ config.restBits = upper := by
  unfold Config.tagged
  rw [Nat.mul_comm, Nat.mul_add_div (by positivity), Nat.div_eq_of_lt restSmall, Nat.add_zero]

/-- The first bit below the tag is that of the rest. -/
theorem tagged_signBit (restSmall : rest < 2 ^ config.restBits) :
    config.tagged upper rest / 2 ^ (config.restBits - 1) &&& 1 = config.signBit rest := by
  have positive : config.restBits = (config.restBits - 1) + 1 := by
    unfold Config.restBits
    cases config.ptrSize <;> rfl
  have split : config.tagged upper rest = 2 ^ (config.restBits - 1) * (2 * upper) + rest := by
    unfold Config.tagged
    rw [positive, pow_succ, Nat.add_sub_cancel]
    ring
  rw [Nat.and_one_is_mod, split, Nat.mul_add_div (by positivity)]
  have bit := signBit_cases restSmall
  unfold Config.signBit at bit ⊢
  omega

/-! ## The generated code on the parts of a pointer -/

variable (config env) in
/-- What the conversion computes. -/
theorem convert_computes {space : AddressSpace} {tag : Nat} (tagOf : getTagForAddrSpace space = some tag)
    (tagSmall : tag < 8) (upperSmall : upper < 8) (restSmall : rest < 2 ^ config.restBits) :
    ∃ node, processConvert config space (ptrParam config) = some node ∧
      Computes config (withPtr (config.tagged upper rest) env) node
        (config.tagged (config.kept upper ||| tag) rest) := by
  have masked := (computes_ptr env (tagged_lt upperSmall restSmall)).and
    (computes_literal config _ (BitVec.allOnes 64 >>> genericPtrTagBitwidth))
  rw [tagged_and_mask upperSmall restSmall] at masked
  have shifted := computes_literal config (withPtr (config.tagged upper rest) env)
    (BitVec.ofNat 64 tag <<< config.restBits)
  have shiftedValue : (BitVec.ofNat 64 tag <<< config.restBits).toNat % 2 ^ config.ptrSize.bits =
      tag * 2 ^ config.restBits := by
    unfold Config.restBits
    cases config.ptrSize <;> interval_cases tag <;> rfl
  rw [shiftedValue] at shifted
  have converted := masked.or shifted
  rw [tagged_or _ restSmall] at converted
  refine ⟨_, ?_, converted⟩
  rw [processConvert, tagOf]
  rfl

variable (env) in
/-- The tag that the switch looks at. -/
theorem switchValue_computes (upperSmall : upper < 8) (restSmall : rest < 2 ^ config.restBits) (which : WhichFn)
    (uniformPtr : Bool) (type : IrType) :
    Computes config (withPtr (config.tagged upper rest) env) (makeAccessFn config which uniformPtr type).switchValue
      upper := by
  have amount := computes_literal config (withPtr (config.tagged upper rest) env)
    (BitVec.ofNat 64 config.restBits)
  have amountValue : (BitVec.ofNat 64 config.restBits).toNat % 2 ^ config.ptrSize.bits = config.restBits := by
    unfold Config.restBits
    cases config.ptrSize <;> rfl
  rw [amountValue] at amount
  have inRange : config.restBits < config.ptrSize.bits := by
    rw [bits_eq]
    omega
  have shifted := (computes_ptr env (tagged_lt upperSmall restSmall)).rshift amount inRange
  rw [tagged_div restSmall] at shifted
  exact shifted

variable (env) in
/-- The address that an access uses: the upper bits are set for a negative rest. -/
theorem recover_computes (upperSmall : upper < 8) (restSmall : rest < 2 ^ config.restBits) :
    Computes config (withPtr (config.tagged upper rest) env) (recoverFullPointer config (ptrParam config))
      (config.tagged (config.kept upper ||| 7 * config.signBit rest) rest) := by
  have pointer := computes_ptr env (tagged_lt upperSmall restSmall)
  have masked := pointer.and (computes_literal config _ (BitVec.allOnes 64 >>> genericPtrTagBitwidth))
  rw [tagged_and_mask upperSmall restSmall] at masked
  have amount := computes_literal config (withPtr (config.tagged upper rest) env)
    (BitVec.ofNat 64 (config.restBits - 1))
  have amountValue : (BitVec.ofNat 64 (config.restBits - 1)).toNat % 2 ^ config.ptrSize.bits = config.restBits - 1 := by
    unfold Config.restBits
    cases config.ptrSize <;> rfl
  rw [amountValue] at amount
  have inRange : config.restBits - 1 < config.ptrSize.bits := by
    rw [bits_eq]
    omega
  have one := computes_literal config (withPtr (config.tagged upper rest) env) 1
  have oneValue : (1 : BitVec 64).toNat % 2 ^ config.ptrSize.bits = 1 := by cases config.ptrSize <;> rfl
  rw [oneValue] at one
  have firstNonTagBit := (pointer.rshift amount inRange).and one
  rw [tagged_signBit restSmall] at firstNonTagBit
  have zero := computes_literal config (withPtr (config.tagged upper rest) env) 0
  have zeroValue : (0 : BitVec 64).toNat % 2 ^ config.ptrSize.bits = 0 := by cases config.ptrSize <;> rfl
  rw [zeroValue] at zero
  have patch := computes_literal config (withPtr (config.tagged upper rest) env)
    (BitVec.ofNat 64 (2 ^ genericPtrTags.length - 1) <<< config.restBits)
  have patchValue : (BitVec.ofNat 64 (2 ^ genericPtrTags.length - 1) <<< config.restBits).toNat %
      2 ^ config.ptrSize.bits = 7 * 2 ^ config.restBits := by
    unfold Config.restBits
    cases config.ptrSize <;> rfl
  rw [patchValue] at patch
  have recovered := masked.or (firstNonTagBit.select one patch zero)
  have extension : (if config.signBit rest = 1 then 7 * 2 ^ config.restBits else 0) =
      7 * config.signBit rest * 2 ^ config.restBits := by
    cases signBit_cases restSmall with
    | inl clear => simp [clear]
    | inr set => simp [set]
  rw [extension, tagged_or _ restSmall] at recovered
  exact recovered

theorem selectCase_tag (upperSmall : upper < 8) (which : WhichFn) (uniformPtr : Bool) (type : IrType) :
    selectCase upper (makeAccessFn config which uniformPtr type).cases =
      tagCase config (genericPtrTags.getD upper .generic) := by
  have denotes : ∀ tag < 8, IntLiteral.denotes ⟨config.ptrSize, false, BitVec.ofNat 64 tag⟩ = (tag : Int) := by
    cases config.ptrSize <;> decide
  interval_cases upper <;>
    simp [selectCase, makeAccessFn, genericPtrTags, denotes, List.find?]

/-- Where an access goes that is made through a tagged pointer. -/
theorem dispatch_tagged (upperSmall : upper < 8) (restSmall : rest < 2 ^ config.restBits) (which : WhichFn)
    (uniformPtr : Bool) (type : IrType) :
    (makeAccessFn config which uniformPtr type).dispatch env (config.tagged upper rest) =
      let space := genericPtrTags.getD upper .generic
      if allowedTag config space then
        some (space, (config.tagged (config.kept upper ||| 7 * config.signBit rest) rest : Int))
      else none := by
  have selected := (switchValue_computes env upperSmall restSmall which uniformPtr type).evalInt
  have recovered := (recover_computes env upperSmall restSmall).evalInt
  rw [AccessFn.dispatch, selected]
  simp only [Option.bind_eq_bind, Option.bind_some, selectCase_tag upperSmall, tagCase]
  split_ifs with allowed
  · simp only [recovered, Option.bind_some]
  · rfl

end Bits

/-! ## Pointers that are converted -/

/-- The conversion of a pointer to a generic one passes the checks of its nodes. -/
structure Convertible (config : Config) (space : AddressSpace) (pointed : IrType) : Prop where
  allowed : config.allowed space = true
  legal : (IrType.ptr pointed space false).isConversionLegal config.toTypesConfig (.ptr pointed .generic false) = .ok true
  tagged : (getTagForAddrSpace space).isSome

/-- The upper bits repeat the first bit below them. -/
def SignExtended {width : Nat} (address : BitVec width) : Prop :=
  (address.setWidth (width - genericPtrTagBitwidth)).signExtend width = address

/-- The upper bits are clear. -/
def ZeroExtended {width : Nat} (address : BitVec width) : Prop :=
  (address.setWidth (width - genericPtrTagBitwidth)).zeroExtend width = address

instance {width : Nat} (address : BitVec width) : Decidable (SignExtended address) := by
  unfold SignExtended
  infer_instance

instance {width : Nat} (address : BitVec width) : Decidable (ZeroExtended address) := by
  unfold ZeroExtended
  infer_instance

def Canonical {width : Nat} (address : BitVec width) : Prop := SignExtended address ∨ ZeroExtended address

section Convert
variable {config : Config} {space : AddressSpace} {pointed : IrType}

theorem Convertible.allowedTag (convertible : Convertible config space pointed) : allowedTag config space = true := by
  have legal := convertible.legal
  have generic := config.generic_physical
  simp only [IrType.isConversionLegal, IrType.isDataType, ensure, IrType.isArithmType, IrType.isPhysicalPtrType,
    IrType.bitwidth, IrType.isGenericPtrType, generic] at legal
  by_cases isGeneric : space = .generic
  · subst isGeneric
    simp [generic] at legal
  · by_cases physical : config.physical space = true
    · simp [GenericPtrs.allowedTag, isGeneric, physical, convertible.allowed]
    · simp [physical] at legal

/-- The spaces with a tag, each with the first one. -/
theorem tagOf_cases {tag : Nat} (tagOf : getTagForAddrSpace space = some tag) (specific : space ≠ .generic) :
    (space = .global ∧ tag = 0) ∨ (space = .shared ∧ tag = 1) ∨ (space = .subgroup ∧ tag = 2) ∨
      (space = .priv ∧ tag = 3) := by
  cases space <;> simp [getTagForAddrSpace, genericPtrTags, List.findIdx?, List.findIdx?.go] at tagOf specific ⊢ <;>
    exact tagOf.symm

/-- The address parts into upper bits and a rest. -/
theorem parts (address : BitVec config.ptrSize.bits) : ∃ upper rest, upper < 8 ∧ rest < 2 ^ config.restBits ∧
    address.toNat = config.tagged upper rest := by
  have small := address.isLt
  have whole : 2 ^ config.ptrSize.bits = 2 ^ config.restBits * 8 := by
    rw [bits_eq, pow_add]
    norm_num
  refine ⟨address.toNat / 2 ^ config.restBits, address.toNat % 2 ^ config.restBits, ?_, Nat.mod_lt _ (by positivity), ?_⟩
  · apply Nat.div_lt_of_lt_mul
    rw [← whole]
    exact small
  · rw [Config.tagged, Nat.mul_comm]
    exact (Nat.div_add_mod _ _).symm

section Parts
variable {address : BitVec config.ptrSize.bits} {upper rest : Nat}

theorem toNat_setWidth_rest (restSmall : rest < 2 ^ config.restBits) (parted : address.toNat = config.tagged upper rest) :
    (address.setWidth config.restBits).toNat = rest := by
  rw [BitVec.toNat_setWidth, parted, Config.tagged, Nat.mul_comm, Nat.mul_add_mod, Nat.mod_eq_of_lt restSmall]

theorem tagged_zero : config.tagged 0 rest = rest := by
  rw [Config.tagged, Nat.zero_mul, Nat.zero_add]

theorem tagged_inj {first second : Nat} : config.tagged first rest = config.tagged second rest ↔ first = second := by
  constructor
  · intro same
    exact Nat.eq_of_mul_eq_mul_right (by positivity) (Nat.add_right_cancel same)
  · intro same
    rw [same]

theorem zeroExtended_iff (restSmall : rest < 2 ^ config.restBits) (parted : address.toNat = config.tagged upper rest) :
    ZeroExtended address ↔ upper = 0 := by
  have extended : ((address.setWidth config.restBits).zeroExtend config.ptrSize.bits).toNat = config.tagged 0 rest := by
    have small : rest < 2 ^ config.ptrSize.bits := by
      have fits : config.tagged 0 rest < _ := tagged_lt (by decide) restSmall
      rwa [tagged_zero] at fits
    rw [BitVec.zeroExtend, BitVec.toNat_setWidth, toNat_setWidth_rest restSmall parted, Nat.mod_eq_of_lt small, tagged_zero]
  unfold ZeroExtended
  rw [← BitVec.toNat_inj, show config.ptrSize.bits - genericPtrTagBitwidth = config.restBits from rfl, extended, parted,
    tagged_inj, eq_comm]

theorem signExtended_iff (restSmall : rest < 2 ^ config.restBits) (parted : address.toNat = config.tagged upper rest) :
    SignExtended address ↔ upper = 7 * config.signBit rest := by
  have small : rest < 2 ^ config.ptrSize.bits := by
    have fits : config.tagged 0 rest < _ := tagged_lt (by decide) restSmall
    rwa [tagged_zero] at fits
  have msb : (address.setWidth config.restBits).msb = decide (config.signBit rest = 1) := by
    rw [BitVec.msb_eq_decide, toNat_setWidth_rest restSmall parted]
    have bit := signBit_cases restSmall
    unfold Config.signBit at bit ⊢
    have positive : 0 < 2 ^ (config.restBits - 1) := by positivity
    by_cases negative : 2 ^ (config.restBits - 1) ≤ rest
    · have set : 1 ≤ rest / 2 ^ (config.restBits - 1) := (Nat.one_le_div_iff positive).mpr negative
      simp only [negative, decide_true, true_eq_decide_iff]
      omega
    · have clear : rest / 2 ^ (config.restBits - 1) = 0 := Nat.div_eq_of_lt (by omega)
      simp [negative, clear]
  have extended : ((address.setWidth config.restBits).signExtend config.ptrSize.bits).toNat =
      config.tagged (7 * config.signBit rest) rest := by
    have above : 2 ^ config.ptrSize.bits - 2 ^ config.restBits = 7 * 2 ^ config.restBits := by
      rw [bits_eq, pow_add]
      omega
    rw [BitVec.toNat_signExtend, BitVec.toNat_setWidth, toNat_setWidth_rest restSmall parted, Nat.mod_eq_of_lt small, msb,
      above, Config.tagged]
    cases signBit_cases restSmall with
    | inl clear => simp [clear]
    | inr set =>
        simp only [set, decide_true, if_true]
        ring
  unfold SignExtended
  rw [← BitVec.toNat_inj, show config.ptrSize.bits - genericPtrTagBitwidth = config.restBits from rfl, extended, parted,
    tagged_inj, eq_comm]

end Parts

end Convert

/-! ## The functions that are found -/

section Names
variable {config : Config} {declName : Nat → String}

theorem load_name_ne_store_name (rest rest' : String) :
    "generated_load_Generic_" ++ rest ≠ "generated_store_Generic_" ++ rest' := by
  intro same
  have letters := congrArg (fun name : String => name.toList[10]?) same
  simp only [String.toList_append] at letters
  rw [List.getElem?_append_left (by decide), List.getElem?_append_left (by decide)] at letters
  revert letters
  decide

theorem loadFn_name (uniformPtr : Bool) (typeName : String) :
    ∃ rest, accessFnName .loadFn uniformPtr typeName = "generated_load_Generic_" ++ rest :=
  ⟨_, String.append_assoc⟩

theorem storeFn_name (uniformPtr : Bool) (typeName : String) :
    ∃ rest, accessFnName .storeFn uniformPtr typeName = "generated_store_Generic_" ++ rest :=
  ⟨_, rfl⟩

theorem accessFnName_which {which which' : WhichFn} {uniformPtr uniformPtr' : Bool} {typeName typeName' : String}
    (same : accessFnName which uniformPtr typeName = accessFnName which' uniformPtr' typeName') : which = which' := by
  obtain ⟨rest, load⟩ := loadFn_name uniformPtr typeName
  obtain ⟨rest', load'⟩ := loadFn_name uniformPtr' typeName'
  obtain ⟨_, store⟩ := storeFn_name uniformPtr typeName
  obtain ⟨_, store'⟩ := storeFn_name uniformPtr' typeName'
  cases which with
  | loadFn =>
      cases which' with
      | loadFn => rfl
      | storeFn =>
          rw [load, store'] at same
          exact (load_name_ne_store_name _ _ same).elim
  | storeFn =>
      cases which' with
      | loadFn =>
          rw [store, load'] at same
          exact (load_name_ne_store_name _ _ same.symm).elim
      | storeFn => rfl

variable (config declName) in
/-- The function of a name is that of the first access with the name. -/
theorem lookup_processAccesses (accesses : List GenericAccess) (name : String) :
    (processAccesses config declName accesses).lookup name =
      (accesses.find? fun access => access.fnName config declName = name).map fun first =>
        makeAccessFn config first.which (first.uniformFn config) first.type := by
  induction accesses using List.reverseRecOn with
  | nil => rfl
  | append_singleton accesses access ih =>
      have last : processAccesses config declName (accesses ++ [access]) =
          (processAccess config declName (processAccesses config declName accesses) access).2 :=
        List.foldl_concat _ _ _ _
      have named : accessFnName access.which (access.uniformFn config) (access.typeName declName) =
          access.fnName config declName := rfl
      rw [last, List.find?_append, processAccess, getOrMakeAccessFn]
      dsimp only
      rw [named]
      split
      · rename_i found known
        rw [ih]
        cases earlier : accesses.find? fun access => access.fnName config declName = name with
        | some first => rfl
        | none =>
            have other : access.fnName config declName ≠ name := by
              intro same
              subst same
              rw [ih, earlier] at known
              cases known
            simp [other]
      · rename_i unknown
        by_cases same : access.fnName config declName = name
        · subst same
          rw [ih] at unknown
          rw [Option.map_eq_none_iff.mp unknown, List.lookup_cons]
          simp [GenericAccess.fnName]
        · have differs : (name == access.fnName config declName) = false := by simpa using Ne.symm same
          rw [List.lookup_cons, differs]
          dsimp only
          rw [ih]
          simp [same]

/-- The access whose function an access calls. -/
def calledFor (config : Config) (declName : Nat → String) (accesses : List GenericAccess) (access : GenericAccess) :
    GenericAccess :=
  (accesses.find? fun earlier => earlier.fnName config declName = access.fnName config declName).getD access

theorem processAccess_eq (accesses : List GenericAccess) (access : GenericAccess) :
    (processAccess config declName (processAccesses config declName accesses) access).1 =
      let first := calledFor config declName accesses access
      makeAccessFn config first.which (first.uniformFn config) first.type := by
  have known := lookup_processAccesses config declName accesses
    (access.fnName config declName)
  have named : accessFnName access.which (access.uniformFn config) (access.typeName declName) =
      access.fnName config declName := rfl
  unfold processAccess getOrMakeAccessFn calledFor
  dsimp only
  rw [named, known]
  cases accesses.find? fun earlier => decide (earlier.fnName config declName = access.fnName config declName) <;> rfl

theorem calledFor_which (accesses : List GenericAccess) (access : GenericAccess) :
    (calledFor config declName accesses access).which = access.which := by
  unfold calledFor
  cases found : accesses.find? fun earlier => decide (earlier.fnName config declName = access.fnName config declName) with
  | none => rfl
  | some first =>
      have same : first.fnName config declName = access.fnName config declName := by simpa using List.find?_some found
      exact accessFnName_which same

end Names

/-! ## Round trips -/

/-- The pointer is recovered in its own address space, and the access through the generic pointer
acts as the one through the pointer. -/
structure RoundTrip (config : Config) (env : Env) (fn : AccessFn) (access : GenericAccess) (space : AddressSpace)
    (address : BitVec config.ptrSize.bits) (generic : Int) : Prop where
  recovers : fn.dispatch env generic = some (space, (address.toNat : Int))
  acts : ∀ (machine : Machine) (memory : machine.Memory) (value : machine.Data),
    fn.call env machine memory value generic =
      some (machine.perform memory value access.which access.type (space, (address.toNat : Int)))

/-- Any pointer of the address space is converted, and accessed after the others of the module. -/
def RoundTrips (config : Config) (declName : Nat → String) (accesses : List GenericAccess) (access : GenericAccess)
    (space : AddressSpace) (address : BitVec config.ptrSize.bits) : Prop :=
  ∀ env : Env, ∃ node generic, processConvert config space (ptrParam config) = some node ∧
    evalInt (withPtr address.toNat env) node = some generic ∧
    RoundTrip config env (processAccess config declName (processAccesses config declName accesses) access).1 access space
      address generic

section RoundTrips
variable {config : Config} {declName : Nat → String} {accesses : List GenericAccess} {access : GenericAccess}
  {space : AddressSpace} {address : BitVec config.ptrSize.bits}

/-- The access that a machine performs is all that it remembers. -/
def recording : Machine where
  Data := Option (IrType × AddressSpace × Int)
  Memory := Option (IrType × AddressSpace × Int)
  load := fun _ type place => some (type, place)
  store := fun _ type place _ => some (type, place)

theorem perform_recording {which : WhichFn} {type type' : IrType} {place place' : AddressSpace × Int}
    (same : recording.perform none none which type place = recording.perform none none which type' place') :
    type = type' := by
  cases which <;> simp [recording, Machine.perform] at same <;> exact same.1

theorem acts_iff {env : Env} {fn : AccessFn} {generic : Int} (which : fn.which = access.which)
    (recovers : fn.dispatch env generic = some (space, (address.toNat : Int))) :
    RoundTrip config env fn access space address generic ↔ fn.type = access.type := by
  constructor
  · intro trip
    have acts := trip.acts recording none none
    unfold AccessFn.call at acts
    rw [recovers, which] at acts
    exact perform_recording (Option.some.inj acts)
  · intro type
    refine ⟨recovers, ?_⟩
    intro machine memory value
    unfold AccessFn.call
    rw [recovers, which, type]
    rfl

/-- Of the upper bits that a canonical pointer can have, these are recovered. -/
theorem upperBits_iff {tag upper rest : Nat}
    (tagOf : (space = .global ∧ tag = 0) ∨ (space = .shared ∧ tag = 1) ∨ (space = .subgroup ∧ tag = 2) ∨
      (space = .priv ∧ tag = 3))
    (restSmall : rest < 2 ^ config.restBits) (canonical : upper = 7 * config.signBit rest ∨ upper = 0) :
    (genericPtrTags.getD (config.kept upper ||| tag) .generic = space ∧
      config.kept (config.kept upper ||| tag) ||| 7 * config.signBit rest = upper) ↔
    (config.ptrSize = .intTy64 ∨ space = .global) ∧ upper = 7 * config.signBit rest := by
  have bit := signBit_cases restSmall
  generalize config.signBit rest = sign at *
  unfold Config.kept
  by_cases wide : config.ptrSize = .intTy64
  · simp only [wide, if_true, true_or, true_and, Nat.zero_or]
    rcases tagOf with ⟨rfl, rfl⟩ | ⟨rfl, rfl⟩ | ⟨rfl, rfl⟩ | ⟨rfl, rfl⟩ <;> simp [genericPtrTags, eq_comm]
  · simp only [wide, if_false, false_or]
    rcases bit with rfl | rfl <;> rcases canonical with rfl | rfl <;>
      rcases tagOf with ⟨rfl, rfl⟩ | ⟨rfl, rfl⟩ | ⟨rfl, rfl⟩ | ⟨rfl, rfl⟩ <;> decide

/-- A converted pointer comes back in pointers of 64 bits, and in the others from global memory
only; its upper bits have to repeat the sign, and the function of the access has to be made for
its own type. -/
theorem roundTrips_iff (convertible : Convertible config space access.type) (canonical : Canonical address) :
    RoundTrips config declName accesses access space address ↔
      (config.ptrSize = .intTy64 ∨ space = .global) ∧ SignExtended address ∧
        ∀ first, accesses.find? (fun earlier => earlier.fnName config declName = access.fnName config declName) =
          some first → first.type = access.type := by
  obtain ⟨tag, tagOf⟩ := Option.isSome_iff_exists.mp convertible.tagged
  have allowed := convertible.allowedTag
  have specific : space ≠ .generic := by
    intro isGeneric
    simp [allowedTag, isGeneric] at allowed
  have tags := tagOf_cases tagOf specific
  have tagSmall : tag < 8 := by omega
  obtain ⟨upper, rest, upperSmall, restSmall, parted⟩ := parts address
  have keptSmall : config.kept upper ||| tag < 8 := by
    have kept : config.kept upper < 8 := by
      unfold Config.kept
      split <;> omega
    exact Nat.or_lt_two_pow (n := 3) kept tagSmall
  have first : (∀ first, accesses.find? (fun earlier => earlier.fnName config declName = access.fnName config declName) =
      some first → first.type = access.type) ↔ (calledFor config declName accesses access).type = access.type := by
    unfold calledFor
    cases accesses.find? fun earlier => decide (earlier.fnName config declName = access.fnName config declName) <;> simp
  rw [first, signExtended_iff restSmall parted, ← and_assoc,
    ← upperBits_iff tags restSmall (by
      cases canonical with
      | inl sign => exact .inl ((signExtended_iff restSmall parted).mp sign)
      | inr zero => exact .inr ((zeroExtended_iff restSmall parted).mp zero))]
  have made : (processAccess config declName (processAccesses config declName accesses) access).1 =
      makeAccessFn config access.which ((calledFor config declName accesses access).uniformFn config)
        (calledFor config declName accesses access).type := by
    rw [processAccess_eq]
    simp only [calledFor_which]
  unfold RoundTrips
  rw [made]
  constructor
  · intro trips
    obtain ⟨node, generic, converts, computes, trip⟩ := trips ⟨fun _ => 0, fun _ => false, fun _ _ _ => 0⟩
    obtain ⟨node', converts', computes'⟩ := convert_computes config _ tagOf tagSmall upperSmall restSmall
    cases converts.symm.trans converts'
    rw [parted, computes'.evalInt] at computes
    cases computes
    have recovers := trip.recovers
    refine ⟨?_, (acts_iff rfl recovers).mp trip⟩
    rw [dispatch_tagged keptSmall restSmall, parted] at recovers
    dsimp only at recovers
    split_ifs at recovers
    simp only [Option.some.injEq, Prod.mk.injEq, Nat.cast_inj] at recovers
    exact ⟨recovers.1, tagged_inj.mp recovers.2⟩
  · intro holds
    obtain ⟨⟨space_eq, upper_eq⟩, type⟩ := holds
    intro env
    obtain ⟨node, converts, computes⟩ := convert_computes config env tagOf tagSmall upperSmall restSmall
    refine ⟨node, _, converts, by rw [parted]; exact computes.evalInt, (acts_iff rfl ?_).mpr type⟩
    rw [dispatch_tagged keptSmall restSmall, parted]
    simp only [space_eq, allowed, if_true, upper_eq]

end RoundTrips

/-- A configuration where all address spaces are physical. -/
def physicalConfig (ptrSize : IntSizes) : Config where
  physical := fun _ => true
  ptrSize := ptrSize
  isSimt := true
  allowed := fun _ => true
  generic_physical := rfl

def loadWord : GenericAccess := ⟨.loadFn, false, .int .intTy32 false, ""⟩

theorem convertible_shared (ptrSize : IntSizes) : Convertible (physicalConfig ptrSize) .shared (.int .intTy32 false) where
  allowed := rfl
  legal := by cases ptrSize <;> decide
  tagged := rfl

/-- A negative pointer to shared memory makes the trip. -/
theorem roundTrips_negative : RoundTrips (physicalConfig .intTy64) (fun _ => "") [loadWord] loadWord .shared (-16) :=
  (roundTrips_iff (convertible_shared .intTy64) (.inl (by decide +kernel))).mpr
    ⟨.inl rfl, by decide +kernel, fun _ found => by
      have first : [loadWord].find? (fun earlier => earlier.fnName (physicalConfig .intTy64) (fun _ => "") =
          loadWord.fnName (physicalConfig .intTy64) (fun _ => "")) = some loadWord := by simp
      cases first.symm.trans found
      rfl⟩

/-- In pointers of 32 bits the tag of shared memory stays in the address. -/
theorem sharedTag_stays :
    Convertible (physicalConfig .intTy32) .shared (.int .intTy32 false) ∧ Canonical (16 : BitVec 32) ∧
      (makeAccessFn (physicalConfig .intTy32) .loadFn false (.int .intTy32 false)).dispatch
        ⟨fun _ => 0, fun _ => false, fun _ _ _ => 0⟩ 0x20000010 = some (.shared, 0x20000010) ∧
      ¬ RoundTrips (physicalConfig .intTy32) (fun _ => "") [] loadWord .shared 16 := by
  refine ⟨convertible_shared .intTy32, .inr (by decide +kernel), by decide +kernel, ?_⟩
  intro trips
  obtain ⟨node, generic, converts, computes, trip⟩ := trips ⟨fun _ => 0, fun _ => false, fun _ _ _ => 0⟩
  cases converts
  have value : generic = 0x20000010 := by
    have computed : evalInt (withPtr 16 ⟨fun _ => 0, fun _ => false, fun _ _ _ => 0⟩)
        (.primOp2 .or (.primOp2 .and (ptrParam (physicalConfig .intTy32))
          (sizeTLiteral (physicalConfig .intTy32) (BitVec.allOnes 64 >>> genericPtrTagBitwidth)))
          (sizeTLiteral (physicalConfig .intTy32) (BitVec.ofNat 64 1 <<< 29))) = some 0x20000010 := by decide +kernel
    exact Option.some.inj (computes.symm.trans computed)
  subst value
  have recovers := trip.recovers
  revert recovers
  decide +kernel

end Shady.GenericPtrs
