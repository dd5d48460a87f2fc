import Shady.Passes.LowerLea

/-!
# Subgroup variables

Model of the number of subgroups that `src/shady/passes/specialize_entry_point.c` computes and
of `src/shady/passes/lower_subgroup_vars.c`, which makes every subgroup variable a shared
array with an element for each subgroup. The rest of a program is what its subgroups do with
the variables, in any order.
-/

set_option autoImplicit false

namespace Shady

/-- The constants of the type `u32` by name, and the variables of a module. -/
structure GlobalVariable where
  addressSpace : AddressSpace
  type : DataType
  init : Option StoredValue

structure VariableModule where
  constants : List (String × BitVec 32)
  globalVariables : List GlobalVariable

/-- `workgroup_size` -/
structure WorkgroupSize where
  x : BitVec 32
  y : BitVec 32
  z : BitVec 32

/-- `shd_generate_dummy_constants` -/
def generateDummyConstants (m : VariableModule) : VariableModule :=
  { m with constants := m.constants ++ [("SUBGROUP_SIZE", 64), ("SUBGROUPS_PER_WG", 1)] }

def subgroupsPerWg (wgSize : WorkgroupSize) (subgroupSize : BitVec 32) : BitVec 32 :=
  let subgroups := wgSize.x * wgSize.y * wgSize.z / subgroupSize
  if subgroups = 0 then 1 else subgroups

/-- `shd_pass_specialize_entry_point`, with the division by zero as a failure. -/
def specializeEntryPoint (wgSize : WorkgroupSize) (subgroupSize : BitVec 32) (m : VariableModule) :
    Option VariableModule :=
  if wgSize.x * wgSize.y * wgSize.z = 0 then none
  else if subgroupSize = 0 then none
  else some { m with constants := m.constants.map fun constant =>
    if constant.1 = "SUBGROUPS_PER_WG" then (constant.1, subgroupsPerWg wgSize subgroupSize) else constant }

mutual

/-- Pointers to subgroup memory become pointers to shared memory. -/
def rewriteType : DataType → DataType
  | .ptr addressSpace => .ptr (if addressSpace = .subgroup then .shared else addressSpace)
  | .arr elementType size => .arr (rewriteType elementType) size
  | .pack elementType width => .pack (rewriteType elementType) width
  | .record members => .record (rewriteTypes members)
  | .qualified isUniform type => .qualified isUniform (rewriteType type)
  | .typeDeclRef body => .typeDeclRef (rewriteType body)
  | type => type

def rewriteTypes : List DataType → List DataType
  | [] => []
  | member :: members => rewriteType member :: rewriteTypes members

end

def lowerGlobalVariable (subgroups : BitVec 32) (v : GlobalVariable) : GlobalVariable :=
  if v.addressSpace = .subgroup then
    { addressSpace := .shared
      type := .arr (rewriteType v.type) (some (uint32Literal subgroups))
      init := v.init.map fun value => .composite (List.replicate subgroups.toNat value) }
  else { v with type := rewriteType v.type }

/-- `shd_pass_lower_subgroup_vars`; without the constant the pass fails. -/
def lowerSubgroupVars (m : VariableModule) : Option VariableModule :=
  (m.constants.lookup "SUBGROUPS_PER_WG").map fun subgroups =>
    { m with globalVariables := m.globalVariables.map (lowerGlobalVariable subgroups) }

def compileVariables (wgSize : WorkgroupSize) (subgroupSize : BitVec 32) (m : VariableModule) :
    Option VariableModule :=
  (specializeEntryPoint wgSize subgroupSize (generateDummyConstants m)).bind lowerSubgroupVars

/-- The `lea` that a reference to a subgroup variable becomes: `SubgroupId` selects the slice. -/
def sliceSteps (subgroup : Nat) : List LeaStep :=
  [.ptrArrayElementOffset (.literal (int32Literal 0)), .ptrCompositeElement (.dynamic ⟨.intTy32, false⟩ subgroup)]

/-! ## What the subgroups of a workgroup do -/

def DataType.element : DataType → Nat → Option DataType
  | .arr elementType (some size), i => if i < literalCount size then some elementType else none
  | .pack elementType width, i => if i < width.toNat then some elementType else none
  | .record members, i => members[i]?
  | .typeDeclRef body, i => body.element i
  | _, _ => none

/-- How many elements there are to move between. -/
def DataType.rowCount : DataType → Option Nat
  | .arr _ (some size) => some (literalCount size)
  | .typeDeclRef body => body.rowCount
  | _ => none

def DataType.elementAt : DataType → List Nat → Option DataType
  | type, [] => some type
  | type, i :: path => (type.element i).bind fun element => element.elementAt path

/-- A step of an address computation that stays inside of a variable. -/
def placeStep (root : DataType) : List Nat × DataType → LeaStep → Option (List Nat × DataType)
  | (path, type), .ptrCompositeElement index =>
      if 0 ≤ index.denotes then
        (type.element index.denotes.toNat).map fun element => (path ++ [index.denotes.toNat], element)
      else none
  | (path, type), .ptrArrayElementOffset offset =>
      if offset.denotes = 0 then some (path, type)
      else do
        let i ← path.getLast?
        let row ← root.elementAt path.dropLast
        let count ← row.rowCount
        if 0 ≤ i + offset.denotes ∧ i + offset.denotes < count then
          some (path.dropLast ++ [(i + offset.denotes).toNat], type)
        else none

/-- The element that an address inside of a variable leads to, with its type. -/
def placeOf (root : DataType) (steps : List LeaStep) : Option (List Nat × DataType) :=
  steps.foldlM (placeStep root) ([], root)

/-- The objects of the variables, for a variable with one for each subgroup those of all. -/
abbrev GroupMemory := Nat → Option Nat → StoredValue

def GlobalVariable.owner (v : GlobalVariable) (subgroup : Nat) : Option Nat :=
  if v.addressSpace = .subgroup then some subgroup else none

/-- A load, or a store of a value, through an address in a variable. -/
structure VariableAccess where
  decl : Nat
  steps : List LeaStep
  stored : Option StoredValue

/-- The access of one subgroup, with the value that it loads; none if it leaves the variable. -/
def performAccess (m : VariableModule) (mem : GroupMemory) (subgroup : Nat) (access : VariableAccess) :
    Option (Option StoredValue × GroupMemory) := do
  let v ← m.globalVariables[access.decl]?
  let place ← placeOf v.type access.steps
  let object := mem access.decl (v.owner subgroup)
  match access.stored with
  | none => do
      let value ← object.extract place.1
      some (some value, mem)
  | some value => do
      let changed ← object.insert place.1 value
      some (none, Function.update mem access.decl
        (Function.update (mem access.decl) (v.owner subgroup) changed))

/-- The accesses of the subgroups in the order in which they happen. -/
def performAll (m : VariableModule) :
    List (Nat × VariableAccess) → GroupMemory → Option (List (Option StoredValue) × GroupMemory)
  | [], mem => some ([], mem)
  | (subgroup, access) :: run, mem =>
      (performAccess m mem subgroup access).bind fun done =>
        (performAll m run done.2).map fun rest => (done.1 :: rest.1, rest.2)

/-- The memory at the start; `undefined` is what is there without an initial value. -/
def initialMemory (m : VariableModule) (undefined : GroupMemory) : GroupMemory := fun decl owner =>
  match m.globalVariables[decl]? with
  | some v => v.init.getD (undefined decl owner)
  | none => undefined decl owner

/-- What an access of a subgroup is after the pass. -/
def lowerAccess (m : VariableModule) (subgroup : Nat) (access : VariableAccess) : VariableAccess :=
  match m.globalVariables[access.decl]? with
  | some v =>
      if v.addressSpace = .subgroup then { access with steps := sliceSteps subgroup ++ access.steps }
      else access
  | none => access

def lowerRun (m : VariableModule) (run : List (Nat × VariableAccess)) : List (Nat × VariableAccess) :=
  run.map fun step => (step.1, lowerAccess m step.1 step.2)

/-- The memory after the pass: the objects of the subgroups as the elements of an array. -/
def sliced (m : VariableModule) (subgroups : Nat) (mem : GroupMemory) : GroupMemory := fun decl owner =>
  match m.globalVariables[decl]? with
  | some v =>
      if v.addressSpace = .subgroup then
        match owner with
        | none => .composite ((List.range subgroups).map fun subgroup => mem decl (some subgroup))
        | some _ => .composite []
      else mem decl owner
  | none => mem decl owner

/-! ## How many subgroups there are -/

namespace WorkgroupSize

/-- The invocations of a workgroup. -/
def invocations (wgSize : WorkgroupSize) : Nat := wgSize.x.toNat * wgSize.y.toNat * wgSize.z.toNat

/-- The subgroups that hold all invocations, the last one perhaps not full. -/
def subgroups (wgSize : WorkgroupSize) (subgroupSize : BitVec 32) : Nat :=
  (wgSize.invocations + subgroupSize.toNat - 1) / subgroupSize.toNat

/-- All subgroups are full, or there is only one. -/
def FullSubgroups (wgSize : WorkgroupSize) (subgroupSize : BitVec 32) : Prop :=
  wgSize.invocations ≤ subgroupSize.toNat ∨ subgroupSize.toNat ∣ wgSize.invocations

theorem product_toNat {wgSize : WorkgroupSize} (small : wgSize.invocations < 2 ^ 32) :
    (wgSize.x * wgSize.y * wgSize.z).toNat = wgSize.invocations := by
  rw [BitVec.toNat_mul, BitVec.toNat_mul, Nat.mod_mul_mod]
  exact Nat.mod_eq_of_lt small

theorem subgroupsPerWg_toNat {wgSize : WorkgroupSize} (subgroupSize : BitVec 32)
    (small : wgSize.invocations < 2 ^ 32) :
    (subgroupsPerWg wgSize subgroupSize).toNat = max 1 (wgSize.invocations / subgroupSize.toNat) := by
  have quotient : (wgSize.x * wgSize.y * wgSize.z / subgroupSize).toNat
      = wgSize.invocations / subgroupSize.toNat := by
    rw [BitVec.toNat_udiv, product_toNat small]
  dsimp only [subgroupsPerWg]
  by_cases none : wgSize.x * wgSize.y * wgSize.z / subgroupSize = 0
  · rw [none] at quotient
    rw [if_pos none, ← quotient]
    rfl
  · rw [if_neg none]
    have positive : (wgSize.x * wgSize.y * wgSize.z / subgroupSize).toNat ≠ 0 :=
      fun zero => none (BitVec.eq_of_toNat_eq zero)
    rw [quotient] at positive ⊢
    omega

/-- The array has an element for every subgroup exactly when no subgroup is partly filled, but
    for a workgroup in one subgroup. -/
theorem subgroups_le_iff {wgSize : WorkgroupSize} {subgroupSize : BitVec 32}
    (small : wgSize.invocations < 2 ^ 32) (sized : 0 < subgroupSize.toNat) :
    wgSize.subgroups subgroupSize ≤ (subgroupsPerWg wgSize subgroupSize).toNat ↔
      wgSize.FullSubgroups subgroupSize := by
  rw [subgroupsPerWg_toNat subgroupSize small, subgroups, FullSubgroups]
  have split := Nat.div_add_mod wgSize.invocations subgroupSize.toNat
  have rest := Nat.mod_lt wgSize.invocations sized
  rw [Nat.div_le_iff_le_mul_add_pred sized, Nat.dvd_iff_mod_eq_zero]
  generalize wgSize.invocations / subgroupSize.toNat = quotient at split ⊢
  generalize wgSize.invocations % subgroupSize.toNat = remainder at split rest ⊢
  cases quotient with
  | zero =>
      rw [Nat.mul_zero, Nat.zero_add] at split
      have one : max 1 0 = 1 := rfl
      rw [one, Nat.mul_one]
      omega
  | succ quotient =>
      have itself : max 1 (quotient + 1) = quotient + 1 := by omega
      rw [itself]
      have large : subgroupSize.toNat ≤ subgroupSize.toNat * (quotient + 1) :=
        Nat.le_mul_of_pos_right _ (Nat.succ_pos quotient)
      omega

end WorkgroupSize

end Shady
