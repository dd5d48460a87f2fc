import Shady.Ir.PrimOp
import Shady.Library.Scan

/-!
# Inclusive scans

Model of `src/shady/passes/lower_inclusive_scan.c`, which replaces an inclusive scan over a
subgroup by another operation of the group and a primitive operator. Values are integers, as the
bits they have, and booleans.
-/

set_option autoImplicit false

namespace Shady.GroupOps

/-! ## The pass -/

/-- The opcodes of the table, by their names. -/
inductive GroupOpcode
  | groupIAdd | groupFAdd | groupFMin | groupUMin | groupSMin | groupFMax | groupUMax | groupSMax
  | groupNonUniformBallotBitCount
  | groupNonUniformIAdd | groupNonUniformFAdd | groupNonUniformIMul | groupNonUniformFMul
  | groupNonUniformSMin | groupNonUniformUMin | groupNonUniformFMin
  | groupNonUniformSMax | groupNonUniformUMax | groupNonUniformFMax
  | groupNonUniformBitwiseAnd | groupNonUniformBitwiseOr | groupNonUniformBitwiseXor
  | groupNonUniformLogicalAnd | groupNonUniformLogicalOr | groupNonUniformLogicalXor
  | groupIAddNonUniformAMD | groupFAddNonUniformAMD | groupFMinNonUniformAMD
  | groupUMinNonUniformAMD | groupSMinNonUniformAMD | groupFMaxNonUniformAMD
  | groupUMaxNonUniformAMD | groupSMaxNonUniformAMD
  | groupIMulKHR | groupFMulKHR | groupBitwiseAndKHR | groupBitwiseOrKHR | groupBitwiseXorKHR
  | groupLogicalAndKHR | groupLogicalOrKHR | groupLogicalXorKHR
  | other (opcode : Nat)
  deriving DecidableEq

/-- `group_operations`; no operator where the table has only a note that it is to be done. -/
def groupOperations : List (GroupOpcode × Option PrimOpTag) :=
  [(.groupIAdd, some .add), (.groupFAdd, some .add), (.groupFMin, some .min), (.groupUMin, some .min),
    (.groupSMin, some .min), (.groupFMax, some .max), (.groupUMax, some .max),
    (.groupSMax, some .max), (.groupNonUniformBallotBitCount, none),
    (.groupNonUniformIAdd, some .add), (.groupNonUniformFAdd, some .add),
    (.groupNonUniformIMul, some .mul), (.groupNonUniformFMul, some .mul),
    (.groupNonUniformSMin, some .min), (.groupNonUniformUMin, some .min),
    (.groupNonUniformFMin, some .min), (.groupNonUniformSMax, some .max),
    (.groupNonUniformUMax, some .max), (.groupNonUniformFMax, some .max),
    (.groupNonUniformBitwiseAnd, some .and), (.groupNonUniformBitwiseOr, some .or),
    (.groupNonUniformBitwiseXor, some .xor), (.groupNonUniformLogicalAnd, some .and),
    (.groupNonUniformLogicalOr, some .or), (.groupNonUniformLogicalXor, some .xor),
    (.groupIAddNonUniformAMD, none), (.groupFAddNonUniformAMD, none),
    (.groupFMinNonUniformAMD, none), (.groupUMinNonUniformAMD, none),
    (.groupSMinNonUniformAMD, none), (.groupFMaxNonUniformAMD, none),
    (.groupUMaxNonUniformAMD, none), (.groupSMaxNonUniformAMD, none), (.groupIMulKHR, none),
    (.groupFMulKHR, none), (.groupBitwiseAndKHR, none), (.groupBitwiseOrKHR, none),
    (.groupBitwiseXorKHR, none), (.groupLogicalAndKHR, none), (.groupLogicalOrKHR, none),
    (.groupLogicalXorKHR, none)]

/-- `SpvGroupOperation` -/
inductive GroupOperation
  | reduce | inclusiveScan | exclusiveScan
  deriving DecidableEq

/-- An `ExtInstr` with the operands of a group operation; values are named by numbers. -/
structure ExtInstr where
  set : String
  opcode : GroupOpcode
  operation : GroupOperation
  value : Nat
  deriving DecidableEq

/-- What an instruction is rewritten to. -/
inductive Lowered
  | extInstr (instr : ExtInstr)
  | primOp (op : PrimOpTag) (instr : ExtInstr) (value : Nat)
  deriving DecidableEq

/-- The case of `ExtInstr` in `process`; an operator left out is the first of all, `add`. -/
def process (instr : ExtInstr) : Lowered :=
  if instr.set = "spirv.core" then
    match groupOperations.lookup instr.opcode with
    | some scalar =>
        if instr.operation = .inclusiveScan then
          .primOp (scalar.getD .add) { instr with operation := .reduce } instr.value
        else .extInstr instr
    | none => .extInstr instr
  else .extInstr instr

/-! ## Values and operators -/

/-- The bits of an integer, or a boolean. -/
abbrev Carrier : ScalarType → Type
  | .int type => BitVec type.width.bits
  | .bool => Bool

section Operators
variable {w : Nat}

def signedMin (x y : BitVec w) : BitVec w := if x.sle y then x else y
def signedMax (x y : BitVec w) : BitVec w := if x.sle y then y else x
def unsignedMin (x y : BitVec w) : BitVec w := if x ≤ y then x else y
def unsignedMax (x y : BitVec w) : BitVec w := if x ≤ y then y else x

end Operators

/-- A primitive operator of the IR on two values of a type. -/
def primOperator (op : PrimOpTag) : (t : ScalarType) → Option (Carrier t → Carrier t → Carrier t)
  | .int type =>
      match op with
      | .add => some (· + ·)
      | .mul => some (· * ·)
      | .min => some (if type.isSigned then signedMin else unsignedMin)
      | .max => some (if type.isSigned then signedMax else unsignedMax)
      | .and => some (· &&& ·)
      | .or => some (· ||| ·)
      | .xor => some (· ^^^ ·)
      | _ => none
  | .bool =>
      match op with
      | .and => some (· && ·)
      | .or => some (· || ·)
      | .xor => some Bool.xor
      | _ => none

/-- What a group operation combines values with; it names the order that it means itself. -/
def groupOperator (opcode : GroupOpcode) :
    (t : ScalarType) → Option (Carrier t → Carrier t → Carrier t)
  | .int _ =>
      match opcode with
      | .groupIAdd | .groupNonUniformIAdd => some (· + ·)
      | .groupNonUniformIMul => some (· * ·)
      | .groupSMin | .groupNonUniformSMin => some signedMin
      | .groupUMin | .groupNonUniformUMin => some unsignedMin
      | .groupSMax | .groupNonUniformSMax => some signedMax
      | .groupUMax | .groupNonUniformUMax => some unsignedMax
      | .groupNonUniformBitwiseAnd => some (· &&& ·)
      | .groupNonUniformBitwiseOr => some (· ||| ·)
      | .groupNonUniformBitwiseXor => some (· ^^^ ·)
      | _ => none
  | .bool =>
      match opcode with
      | .groupNonUniformLogicalAnd => some (· && ·)
      | .groupNonUniformLogicalOr => some (· || ·)
      | .groupNonUniformLogicalXor => some Bool.xor
      | _ => none

/-! ## Subgroups -/

/-- The lanes of a subgroup, those that are active, and the values that they have. -/
structure Lanes (t : ScalarType) where
  size : Nat
  active : Fin size → Bool
  value : Nat → Fin size → Carrier t

namespace Lanes
variable {t : ScalarType} (lanes : Lanes t)

def activeLanes : List (Fin lanes.size) := (List.finRange lanes.size).filter (lanes.active ·)

def upTo (i : Fin lanes.size) : List (Fin lanes.size) := lanes.activeLanes.filter (· ≤ i)

def behind (i : Fin lanes.size) : List (Fin lanes.size) := lanes.activeLanes.filter (i < ·)

/-- What a group operation gives a lane. -/
def groupOp (f : Carrier t → Carrier t → Carrier t) (value : Nat) (i : Fin lanes.size) :
    GroupOperation → Option (Carrier t)
  | .reduce => Scan.combine f (lanes.activeLanes.map (lanes.value value))
  | .inclusiveScan => Scan.combine f ((lanes.upTo i).map (lanes.value value))
  | .exclusiveScan =>
      Scan.combine f ((lanes.activeLanes.filter (· < i)).map (lanes.value value))

def evalExtInstr (instr : ExtInstr) (i : Fin lanes.size) : Option (Carrier t) :=
  (groupOperator instr.opcode t).bind fun f => lanes.groupOp f instr.value i instr.operation

def eval (i : Fin lanes.size) : Lowered → Option (Carrier t)
  | .extInstr instr => lanes.evalExtInstr instr i
  | .primOp op instr value => do
      let f ← primOperator op t
      let new ← lanes.evalExtInstr instr i
      some (f new (lanes.value value i))

end Lanes

/-! ## When the scan is kept -/

/-- How an operator behaves on a value that it has taken in already. -/
inductive Law
  | cancels | multiplies | absorbs | selects
  deriving DecidableEq

/-- The operator of the IR has the order of the type, which may be another one. -/
def law (opcode : GroupOpcode) : ScalarType → Law
  | .int type =>
      match opcode with
      | .groupIAdd | .groupNonUniformIAdd | .groupNonUniformBitwiseXor => .cancels
      | .groupNonUniformIMul => .multiplies
      | .groupSMin | .groupNonUniformSMin | .groupSMax | .groupNonUniformSMax =>
          if type.isSigned then .absorbs else .selects
      | .groupUMin | .groupNonUniformUMin | .groupUMax | .groupNonUniformUMax =>
          if type.isSigned then .selects else .absorbs
      | _ => .absorbs
  | .bool =>
      match opcode with
      | .groupNonUniformLogicalXor => .cancels
      | _ => .absorbs

def zero : (t : ScalarType) → Carrier t
  | .int _ => 0
  | .bool => false

/-- With the value `c` of the scan, the lane's own value and those of the active lanes behind it. -/
def Kept {t : ScalarType} (f g : Carrier t → Carrier t → Carrier t) (c own : Carrier t)
    (later : List (Carrier t)) : Law → Prop
  | .cancels => later.foldl f own = zero t
  | .multiplies => f c (later.foldl f own) = c
  | .absorbs => ∀ x ∈ later, f c x = c
  | .selects => (∀ x ∈ later, f c x = c) ∧ g c own = c ∨ c = own ∧ g (later.foldl f c) own = own

/-! ## Laws of the operators -/

section Orders
variable {w : Nat}

theorem signedMin_toInt (x y : BitVec w) : (signedMin x y).toInt = min x.toInt y.toInt := by
  unfold signedMin
  rw [BitVec.sle_eq_decide]
  split <;> rename_i le <;> simp only [decide_eq_true_eq] at le <;> omega

theorem signedMax_toInt (x y : BitVec w) : (signedMax x y).toInt = max x.toInt y.toInt := by
  unfold signedMax
  rw [BitVec.sle_eq_decide]
  split <;> rename_i le <;> simp only [decide_eq_true_eq] at le <;> omega

theorem unsignedMin_toNat (x y : BitVec w) : (unsignedMin x y).toNat = min x.toNat y.toNat := by
  unfold unsignedMin
  split <;> rename_i le <;> rw [BitVec.le_def] at le <;> omega

theorem unsignedMax_toNat (x y : BitVec w) : (unsignedMax x y).toNat = max x.toNat y.toNat := by
  unfold unsignedMax
  split <;> rename_i le <;> rw [BitVec.le_def] at le <;> omega

end Orders

/-- Associative, commutative and idempotent. -/
structure Semilattice {α : Type} (f : α → α → α) : Prop where
  assoc : ∀ a b c, f (f a b) c = f a (f b c)
  comm : ∀ a b, f a b = f b a
  idem : ∀ a, f a a = a

/-- An operator that is a minimum or a maximum in a linear order. -/
theorem Semilattice.of_injective {α β : Type} {f : α → α → α} {h : β → β → β} (read : α → β)
    (injective : Function.Injective read) (reads : ∀ x y, read (f x y) = h (read x) (read y))
    (below : Semilattice h) : Semilattice f where
  assoc a b c := injective (by rw [reads, reads, reads, reads, below.assoc])
  comm a b := injective (by rw [reads, reads, below.comm])
  idem a := injective (by rw [reads, below.idem])

theorem semilattice_min {β : Type} [LinearOrder β] : Semilattice (min : β → β → β) :=
  ⟨min_assoc, min_comm, min_self⟩

theorem semilattice_max {β : Type} [LinearOrder β] : Semilattice (max : β → β → β) :=
  ⟨max_assoc, max_comm, max_self⟩

section Orders
variable {w : Nat}

theorem semilattice_signedMin : Semilattice (signedMin : BitVec w → BitVec w → BitVec w) :=
  .of_injective BitVec.toInt (fun _ _ => BitVec.eq_of_toInt_eq) signedMin_toInt semilattice_min

theorem semilattice_signedMax : Semilattice (signedMax : BitVec w → BitVec w → BitVec w) :=
  .of_injective BitVec.toInt (fun _ _ => BitVec.eq_of_toInt_eq) signedMax_toInt semilattice_max

theorem semilattice_unsignedMin : Semilattice (unsignedMin : BitVec w → BitVec w → BitVec w) :=
  .of_injective BitVec.toNat (fun _ _ => BitVec.eq_of_toNat_eq) unsignedMin_toNat semilattice_min

theorem semilattice_unsignedMax : Semilattice (unsignedMax : BitVec w → BitVec w → BitVec w) :=
  .of_injective BitVec.toNat (fun _ _ => BitVec.eq_of_toNat_eq) unsignedMax_toNat semilattice_max

end Orders

/-- What a law says of the operator of the group and that of the IR. -/
structure Obeys {t : ScalarType} (f g : Carrier t → Carrier t → Carrier t) (l : Law) : Prop where
  assoc : ∀ a b c, f (f a b) c = f a (f b c)
  comm : ∀ a b, f a b = f b a
  same : l ≠ .selects → g = f
  cancel : l = .cancels → ∀ c x, f c x = c ↔ x = zero t
  idem : l = .absorbs ∨ l = .selects → ∀ a, f a a = a
  either : l = .selects → ∀ a b, g a b = a ∨ g a b = b

section Obeys
variable {t : ScalarType} {f g : Carrier t → Carrier t → Carrier t}

theorem Obeys.of_semilattice (laws : Semilattice f) : Obeys f f .absorbs :=
  ⟨laws.assoc, laws.comm, fun _ => rfl, nofun, fun _ => laws.idem, nofun⟩

theorem Obeys.of_selection (laws : Semilattice f) (either : ∀ a b, g a b = a ∨ g a b = b) :
    Obeys f g .selects :=
  ⟨laws.assoc, laws.comm, fun other => absurd rfl other, nofun, fun _ => laws.idem, fun _ => either⟩

theorem Obeys.of_cancel (assoc : ∀ a b c, f (f a b) c = f a (f b c)) (comm : ∀ a b, f a b = f b a)
    (cancel : ∀ c x, f c x = c ↔ x = zero t) : Obeys f f .cancels :=
  ⟨assoc, comm, fun _ => rfl, fun _ => cancel, nofun, nofun⟩

theorem Obeys.of_comm (assoc : ∀ a b c, f (f a b) c = f a (f b c)) (comm : ∀ a b, f a b = f b a) :
    Obeys f f .multiplies :=
  ⟨assoc, comm, fun _ => rfl, nofun, nofun, nofun⟩

end Obeys

theorem xor_eq_self {w : Nat} (c x : BitVec w) : c ^^^ x = c ↔ x = 0#w := by
  have zero : c ^^^ 0#w = c := BitVec.xor_zero
  constructor
  · intro same
    exact BitVec.xor_right_inj c |>.mp (same.trans zero.symm)
  · intro same
    rw [same, zero]

/-- Minimum and maximum by the order of the type, against an order of the group. -/
theorem obeys_order {type : IntType} {f signed unsigned : BitVec type.width.bits →
      BitVec type.width.bits → BitVec type.width.bits} (isSigned : Bool) (laws : Semilattice f)
    (named : f = if isSigned then signed else unsigned)
    (either : ∀ a b, (if type.isSigned then signed else unsigned) a b = a ∨
      (if type.isSigned then signed else unsigned) a b = b) :
    @Obeys (.int type) f (if type.isSigned then signed else unsigned)
      (if type.isSigned = isSigned then .absorbs else .selects) := by
  by_cases agree : type.isSigned = isSigned
  · rw [if_pos agree, agree, ← named]
    exact Obeys.of_semilattice laws
  · rw [if_neg agree]
    exact Obeys.of_selection laws either

theorem min_either {type : IntType} (a b : BitVec type.width.bits) :
    (if type.isSigned then signedMin else unsignedMin) a b = a ∨
      (if type.isSigned then signedMin else unsignedMin) a b = b := by
  cases type.isSigned with
  | true =>
      simp only [if_true, signedMin]
      split
      · exact Or.inl rfl
      · exact Or.inr rfl
  | false =>
      simp only [Bool.false_eq_true, if_false, unsignedMin]
      split
      · exact Or.inl rfl
      · exact Or.inr rfl

theorem max_either {type : IntType} (a b : BitVec type.width.bits) :
    (if type.isSigned then signedMax else unsignedMax) a b = a ∨
      (if type.isSigned then signedMax else unsignedMax) a b = b := by
  cases type.isSigned with
  | true =>
      simp only [if_true, signedMax]
      split
      · exact Or.inr rfl
      · exact Or.inl rfl
  | false =>
      simp only [Bool.false_eq_true, if_false, unsignedMax]
      split
      · exact Or.inr rfl
      · exact Or.inl rfl

theorem selects_or_absorbs (type : IntType) :
    (if type.isSigned then Law.selects else .absorbs) =
      if type.isSigned = false then Law.absorbs else .selects := by
  cases type.isSigned <;> rfl

/-- Every operator of the table on the values of a type obeys its law. -/
theorem obeys_law {t : ScalarType} {opcode : GroupOpcode} {op : PrimOpTag}
    {f : Carrier t → Carrier t → Carrier t} (listed : groupOperations.lookup opcode = some (some op))
    (named : groupOperator opcode t = some f) :
    ∃ g, primOperator op t = some g ∧ Obeys f g (law opcode t) := by
  cases t with
  | int type =>
      cases opcode
      case groupIAdd | groupNonUniformIAdd =>
        cases named
        cases listed
        exact ⟨_, rfl, .of_cancel BitVec.add_assoc BitVec.add_comm fun c x => BitVec.add_right_eq_self⟩
      case groupNonUniformBitwiseXor =>
        cases named
        cases listed
        exact ⟨_, rfl, .of_cancel BitVec.xor_assoc BitVec.xor_comm xor_eq_self⟩
      case groupNonUniformIMul =>
        cases named
        cases listed
        exact ⟨_, rfl, .of_comm BitVec.mul_assoc BitVec.mul_comm⟩
      case groupNonUniformBitwiseAnd =>
        cases named
        cases listed
        exact ⟨_, rfl, .of_semilattice ⟨BitVec.and_assoc, BitVec.and_comm, fun a => BitVec.and_self⟩⟩
      case groupNonUniformBitwiseOr =>
        cases named
        cases listed
        exact ⟨_, rfl, .of_semilattice ⟨BitVec.or_assoc, BitVec.or_comm, fun a => BitVec.or_self⟩⟩
      case groupSMin | groupNonUniformSMin =>
        cases named
        cases listed
        exact ⟨_, rfl, obeys_order true semilattice_signedMin rfl min_either⟩
      case groupSMax | groupNonUniformSMax =>
        cases named
        cases listed
        exact ⟨_, rfl, obeys_order true semilattice_signedMax rfl max_either⟩
      case groupUMin | groupNonUniformUMin =>
        cases named
        cases listed
        have laws := @obeys_order type _ signedMin unsignedMin false semilattice_unsignedMin rfl min_either
        rw [← selects_or_absorbs type] at laws
        exact ⟨_, rfl, laws⟩
      case groupUMax | groupNonUniformUMax =>
        cases named
        cases listed
        have laws := @obeys_order type _ signedMax unsignedMax false semilattice_unsignedMax rfl max_either
        rw [← selects_or_absorbs type] at laws
        exact ⟨_, rfl, laws⟩
      all_goals exact nomatch named
  | bool =>
      cases opcode
      case groupNonUniformLogicalAnd =>
        cases named
        cases listed
        exact ⟨_, rfl, .of_semilattice ⟨Bool.and_assoc, Bool.and_comm, Bool.and_self⟩⟩
      case groupNonUniformLogicalOr =>
        cases named
        cases listed
        exact ⟨_, rfl, .of_semilattice ⟨Bool.or_assoc, Bool.or_comm, Bool.or_self⟩⟩
      case groupNonUniformLogicalXor =>
        cases named
        cases listed
        exact ⟨_, rfl, .of_cancel Bool.xor_assoc Bool.xor_comm (by decide)⟩
      all_goals exact nomatch named

/-! ## The lowered scan -/

/-- The whole reduction, combined with the lane's own value, is the scan if and only if the condition
of the law holds. -/
theorem kept_iff {t : ScalarType} {f g : Carrier t → Carrier t → Carrier t} {l : Law}
    (obeys : Obeys f g l) {c own : Carrier t} {before : List (Carrier t)}
    (scan : Scan.combine f before = some c) (member : own ∈ before) (later : List (Carrier t)) :
    g (later.foldl f c) own = c ↔ Kept f g c own later l := by
  have : Std.Associative f := ⟨obeys.assoc⟩
  have : Std.Commutative f := ⟨obeys.comm⟩
  cases l with
  | cancels =>
      rw [obeys.same (by decide)]
      exact Scan.foldl_last_eq_iff_of_cancel f (obeys.cancel rfl c) own later
  | multiplies =>
      rw [obeys.same (by decide), Scan.foldl_last f]
      exact Iff.rfl
  | absorbs =>
      have : Std.IdempotentOp f := ⟨obeys.idem (Or.inl rfl)⟩
      rw [obeys.same (by decide)]
      exact Scan.foldl_last_eq_iff_of_idempotent f (Scan.combine_absorbs f scan member) later
  | selects =>
      have : Std.IdempotentOp f := ⟨obeys.idem (Or.inr rfl)⟩
      have whole : later.foldl f c = c ↔ ∀ x ∈ later, f c x = c := by
        have start := Scan.foldl_last_eq_iff_of_idempotent f (Std.IdempotentOp.idempotent c) later
        rw [Scan.foldl_move f, @Std.IdempotentOp.idempotent _ f _] at start
        exact start
      constructor
      · intro same
        cases obeys.either rfl (later.foldl f c) own with
        | inl reduction =>
            have unchanged : later.foldl f c = c := reduction.symm.trans same
            rw [unchanged] at same
            exact Or.inl ⟨whole.mp unchanged, same⟩
        | inr lane => exact Or.inr ⟨same.symm.trans lane, lane⟩
      · rintro (⟨unchanged, first⟩ | ⟨own_, last⟩)
        · rw [whole.mpr unchanged]
          exact first
        · exact last.trans own_.symm

namespace Lanes
variable {t : ScalarType} (lanes : Lanes t)

theorem activeLanes_split (i : Fin lanes.size) :
    lanes.activeLanes = lanes.upTo i ++ lanes.behind i := by
  have sorted : lanes.activeLanes.Pairwise (· < ·) :=
    (List.pairwise_lt_finRange lanes.size).sublist List.filter_sublist
  exact Scan.filter_le_append_filter_lt sorted i

theorem mem_upTo {i : Fin lanes.size} (active : lanes.active i = true) : i ∈ lanes.upTo i := by
  rw [upTo, activeLanes, List.mem_filter, List.mem_filter]
  exact ⟨⟨List.mem_finRange i, active⟩, decide_eq_true le_rfl⟩

/-- The condition for a lane of a scan with one of the operators of the table. -/
def ScanKept (instr : ExtInstr) (i : Fin lanes.size) : Prop :=
  ∀ f op g c, groupOperator instr.opcode t = some f →
    groupOperations.lookup instr.opcode = some (some op) → primOperator op t = some g →
      Scan.combine f ((lanes.upTo i).map (lanes.value instr.value)) = some c →
        Kept f g c (lanes.value instr.value i)
          ((lanes.behind i).map (lanes.value instr.value)) (law instr.opcode t)

end Lanes

/-- The operators that the table lowers to an operator of the IR. -/
def Supported (opcode : GroupOpcode) (t : ScalarType) : Prop :=
  (groupOperator opcode t).isSome ∧ (groupOperations.lookup opcode).join.isSome

/-- Two lanes, both active, each with the value one. -/
def twoOnes : Lanes (.int ⟨.intTy32, false⟩) := ⟨2, fun _ => true, fun _ _ => 1⟩

def scanIAdd : ExtInstr := ⟨"spirv.core", .groupNonUniformIAdd, .inclusiveScan, 0⟩

def firstOfTwo : Fin twoOnes.size := ⟨0, by decide⟩

end Shady.GroupOps
