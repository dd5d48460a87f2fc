import Shady.Ir.PrimOp
import Shady.FoldPtrPlaces

/-!
# Generic pointers

Model of `src/shady/passes/lower_generic_ptrs.c`. A generic pointer becomes an unsigned integer
with a tag for the address space in its upper bits. Accesses through it become calls of functions
that switch over the tag, made on demand for the name of the accessed type. Casts between
pointers and integers keep the bits, so the pointers stand here as the integers they are cast to.
-/

set_option autoImplicit false

namespace Shady.GenericPtrs

/-- What the pass reads of the configuration of an arena. -/
structure Config extends TypesConfig where
  allowed : AddressSpace → Bool
  /-- No pass makes the generic address space a logical one. -/
  generic_physical : physical .generic = true

/-- `generic_ptr_tag_bitwidth` -/
def genericPtrTagBitwidth : Nat := 3

inductive WhichFn
  | loadFn
  | storeFn
  deriving DecidableEq

/-- A case of the switch over the tag: the access is one to `addressSpace`, through `ptr`. -/
inductive TagCase
  | unreachable
  | access (addressSpace : AddressSpace) (ptr : Node)

/-- A generated function. The default of its switch is unreachable. -/
structure AccessFn where
  which : WhichFn
  uniformPtr : Bool
  type : IrType
  switchValue : Node
  cases : List (IntLiteral × TagCase)

section Pass
variable (config : Config)

/-- `generic_ptr_type` -/
def genericPtrType : IntType := ⟨config.ptrSize, false⟩

/-- `size_t_literal` -/
def sizeTLiteral (value : BitVec 64) : Node := .intLiteral ⟨config.ptrSize, false, value⟩

/-- The bits of a generic pointer, or of the pointer that a conversion starts from. -/
def ptrParam : Node := .value 0 (.int (genericPtrType config))

/-- `recover_full_pointer`, without the cast of the integer to a pointer of the address space -/
def recoverFullPointer (nptr : Node) : Node :=
  let width := (genericPtrType config).width.bits
  let firstNonTagBit := Node.primOp2 .rshiftLogical nptr (sizeTLiteral config (BitVec.ofNat 64 (width - genericPtrTagBitwidth - 1)))
  let firstNonTagBit := Node.primOp2 .and firstNonTagBit (sizeTLiteral config 1)
  let needsSignExtension := Node.primOp2 .eq firstNonTagBit (sizeTLiteral config 1)
  -- the length of the table stands where the width of a tag is meant
  let patch := BitVec.ofNat 64 (2 ^ genericPtrTags.length - 1) <<< (width - genericPtrTagBitwidth)
  let signExtensionPatch := Node.primOp3 .select needsSignExtension (sizeTLiteral config patch) (sizeTLiteral config 0)
  let patchedPtr := Node.primOp2 .and nptr (sizeTLiteral config (BitVec.allOnes 64 >>> genericPtrTagBitwidth))
  .primOp2 .or patchedPtr signExtensionPatch

/-- `allowed` -/
def allowedTag (space : AddressSpace) : Bool :=
  if space = .generic then false else config.physical space && config.allowed space

/-- The case for a tag of the table. -/
def tagCase (space : AddressSpace) : TagCase :=
  if allowedTag config space then .access space (recoverFullPointer config (ptrParam config)) else .unreachable

/-- The function that `get_or_make_access_fn` makes. -/
def makeAccessFn (which : WhichFn) (uniformPtr : Bool) (type : IrType) : AccessFn where
  which := which
  uniformPtr := uniformPtr
  type := type
  switchValue := .primOp2 .rshiftLogical (ptrParam config)
    (sizeTLiteral config (BitVec.ofNat 64 ((genericPtrType config).width.bits - genericPtrTagBitwidth)))
  cases := genericPtrTags.mapIdx fun tag space => (⟨config.ptrSize, false, .ofNat 64 tag⟩, tagCase config space)

/-- `shd_get_type_name`, with the names of the nominal types, and the one that
`shd_make_unique_name` makes for a type without a name. -/
def getTypeName (declName : Nat → String) (uniqueName : String) : IrType → String
  | .maskType => "mask_t"
  | .noRet => "no_ret"
  | .int width isSigned =>
      (if isSigned then "i" else "u") ++
        match width with
        | .intTy8 => "8"
        | .intTy16 => "16"
        | .intTy32 => "32"
        | .intTy64 => "64"
  | .float .floatTy16 => "f16"
  | .float .floatTy32 => "f32"
  | .float .floatTy64 => "f64"
  | .bool => "bool"
  | .typeDeclRef decl _ => declName decl
  | _ => uniqueName

/-- The name of an access function, for the name of a type. -/
def accessFnName (which : WhichFn) (uniformPtr : Bool) (typeName : String) : String :=
  match which with
  | .loadFn => "generated_load_Generic_" ++ typeName ++ (if uniformPtr then "_uniform" else "")
  | .storeFn => "generated_store_Generic_" ++ typeName

/-- The dictionary of the functions made so far. -/
abbrev Fns := List (String × AccessFn)

/-- `get_or_make_access_fn`, where `typeName` is the name it gets for the type -/
def getOrMakeAccessFn (fns : Fns) (which : WhichFn) (uniformPtr : Bool) (type : IrType) (typeName : String) :
    AccessFn × Fns :=
  let name := accessFnName which uniformPtr typeName
  match fns.lookup name with
  | some found => (found, fns)
  | none =>
      let newFn := makeAccessFn config which uniformPtr type
      (newFn, (name, newFn) :: fns)

/-- A load or a store through a generic pointer; `type` is the pointed type, rewritten. -/
structure GenericAccess where
  which : WhichFn
  uniformPtr : Bool
  type : IrType
  uniqueName : String

/-- The flag that the case of the node passes on. -/
def GenericAccess.uniformFn (access : GenericAccess) : Bool :=
  match access.which with
  | .loadFn => access.uniformPtr && config.isAddrSpaceUniform .generic
  | .storeFn => false

variable (declName : Nat → String)

def GenericAccess.typeName (access : GenericAccess) : String := getTypeName declName access.uniqueName access.type

def GenericAccess.fnName (access : GenericAccess) : String :=
  accessFnName access.which (access.uniformFn config) (access.typeName declName)

/-- `process` on a load or a store -/
def processAccess (fns : Fns) (access : GenericAccess) : AccessFn × Fns :=
  getOrMakeAccessFn config fns access.which (access.uniformFn config) access.type (access.typeName declName)

/-- The functions that there are after the accesses that the pass came across. -/
def processAccesses (accesses : List GenericAccess) : Fns :=
  accesses.foldl (fun fns access => (processAccess config declName fns access).2) []

/-- `process` on a conversion into a generic pointer. Without a tag it is an error. -/
def processConvert (src : AddressSpace) (ptr : Node) : Option Node :=
  (getTagForAddrSpace src).map fun tag =>
    let genericPtr := Node.primOp2 .and ptr (sizeTLiteral config (BitVec.allOnes 64 >>> genericPtrTagBitwidth))
    let shiftedTag := sizeTLiteral config
      (BitVec.ofNat 64 tag <<< ((genericPtrType config).width.bits - genericPtrTagBitwidth))
    .primOp2 .or genericPtr shiftedTag

end Pass

/-! ## Runs of the generated code -/

/-- An execution with these bits in the pointer. -/
def withPtr (bits : Int) (env : Env) : Env := { env with int := fun id => if id = 0 then bits else env.int id }

/-- The integer that a node computes. -/
def evalInt (env : Env) (node : Node) : Option Int :=
  match eval env node with
  | some (.int _ z) => some z
  | _ => none

/-- The case that the switch jumps to. -/
def selectCase (selected : Int) (cases : List (IntLiteral × TagCase)) : TagCase :=
  match cases.find? fun arm => decide (arm.1.denotes = selected) with
  | some arm => arm.2
  | none => .unreachable

/-- The address space and the address that the function accesses for a generic pointer, if it
reaches an access. -/
def AccessFn.dispatch (env : Env) (fn : AccessFn) (generic : Int) : Option (AddressSpace × Int) := do
  let selected ← evalInt (withPtr generic env) fn.switchValue
  match selectCase selected fn.cases with
  | .unreachable => none
  | .access space ptr => do
      let address ← evalInt (withPtr generic env) ptr
      some (space, address)

/-- What a load and a store of a type do to memory. -/
structure Machine where
  Data : Type
  Memory : Type
  load : Memory → IrType → AddressSpace × Int → Data
  store : Memory → IrType → AddressSpace × Int → Data → Memory

/-- The result of a load, and the memory after a store. -/
def Machine.perform (machine : Machine) (memory : machine.Memory) (value : machine.Data) (which : WhichFn)
    (type : IrType) (place : AddressSpace × Int) : Option machine.Data × machine.Memory :=
  match which with
  | .loadFn => (some (machine.load memory type place), memory)
  | .storeFn => (none, machine.store memory type place value)

/-- A call of a generated function, unless it reaches nothing. -/
def AccessFn.call (env : Env) (machine : Machine) (memory : machine.Memory) (value : machine.Data) (fn : AccessFn)
    (generic : Int) : Option (Option machine.Data × machine.Memory) :=
  (fn.dispatch env generic).map (machine.perform memory value fn.which fn.type)

end Shady.GenericPtrs
