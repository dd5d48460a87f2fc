import Shady.Ir.IrTypes

/-!
# Folding of pointer operands

Model of `resolve_ptr_source`, `simplify_ptr_operand` and `fold_simplify_ptr_operand` of
`src/shady/fold.c`, with the checks that `src/shady/check.c` makes on every node that they
create, and the rest of `_shd_fold_node` on such nodes. Accesses through packs of pointers and
operands that are undefined, over which no cast is built, are left out.
-/

set_option autoImplicit false

namespace Shady

/-- A value that an access takes along. -/
structure Argument where
  id : Nat
  type : IrType
  deriving DecidableEq

inductive PtrNode
  /-- Any other node, with its type. -/
  | source (id : Nat) (isUniform : Bool) (type : IrType)
  | reinterpretOp (dst : IrType) (operand : PtrNode)
  | convertOp (dst : IrType) (operand : PtrNode)
  | ptrCompositeElement (ptr : PtrNode) (index : Selector)
  | ptrArrayElementOffset (ptr : PtrNode) (offset : Selector)
  | load (ptr : PtrNode)
  | store (ptr : PtrNode) (value : Argument)
  | call (callee : PtrNode) (args : List Argument)
  | tailCall (callee : PtrNode) (args : List Argument)
  deriving DecidableEq

/-! ## The checks of the nodes -/

/-- `shd_maybe_multiple_return` -/
def maybeMultipleReturn : IrTypes → IrType
  | .nil => .record .nil .multipleReturn
  | .cons type .nil => type
  | types => .record types .multipleReturn

/-- `check_arguments_types_against_parameters_helper` -/
def checkArguments : IrTypes → List Argument → Except CheckError Unit
  | .nil, [] => .ok ()
  | .cons param params, arg :: args =>
      if param.isSubtype arg.type then checkArguments params args else .error (.died "failed check_subtype")
  | _, _ => .error (.died "Mismatched number of arguments/parameters")

/-- `check_value_call` -/
def checkValueCall (calleeType : IrType) (args : List Argument) : Except CheckError IrTypes := do
  let (_, callee) ← calleeType.deconstructQualifiedType
  match callee with
  | .ptr (.fn paramTypes returnTypes) space _ =>
      ensure (decide (space = .generic)) "as == AsGeneric"
      checkArguments paramTypes args
      return returnTypes
  | _ => .error (.assertion "callee_type->tag == FnType_TAG")

/-- The uniformity and the payload of the type of a pointer. -/
def deconstructPtr (type : IrType) : Except CheckError (Bool × IrType × AddressSpace × Bool) := do
  let (isUniform, type) ← type.deconstructQualifiedType
  match type with
  | .ptr pointedType space isReference => return (isUniform, pointedType, space, isReference)
  | _ => .error (.assertion "ptr_type->tag == PtrType_TAG")

section Checks
variable (config : TypesConfig)

/-- `_shd_check_type_load` -/
def checkLoad (ptrType : IrType) : Except CheckError IrType := do
  let (isUniform, pointedType, space, _) ← deconstructPtr ptrType
  qualifiedType config (isUniform && config.isAddrSpaceUniform space) pointedType

/-- `_shd_check_type_store` -/
def checkStore (ptrType valueType : IrType) : Except CheckError IrType := do
  let (_, pointedType, _, _) ← deconstructPtr ptrType
  let expected ← qualifiedType config (!config.isSimt) pointedType
  ensure (expected.isSubtype valueType) "shd_is_subtype(val_expected_type, store.value->type)"
  return .record .nil .multipleReturn

/-- `_shd_check_type_ptr_composite_element` -/
def checkPtrCompositeElement (ptrType : IrType) (index : Selector) : Except CheckError IrType := do
  let (isUniform, pointedType, space, isReference) ← deconstructPtr ptrType
  let element ← pointedType.enterCompositeType index
  qualifiedType config (isUniform && index.isUniform) (.ptr element space isReference)

/-- `_shd_check_type_ptr_array_element_offset` -/
def checkPtrArrayElementOffset (ptrType : IrType) (offset : Selector) : Except CheckError IrType := do
  let (isUniform, pointedType, space, isReference) ← deconstructPtr ptrType
  let offsetIsZero := offset.resolved.any fun lit => lit.value == 0
  ensure (offsetIsZero || !isReference) "if an offset is used, the base cannot be a reference"
  ensure (offsetIsZero || pointedType.isDataType) "if an offset is used, the base must point to a data type"
  qualifiedType config (isUniform && offset.isUniform) (.ptr pointedType space isReference)

/-- The `reinterpret_op` and `convert_op` cases of `_shd_check_type_prim_op`. -/
def checkCast (isLegal : IrType → IrType → Except CheckError Bool) (dst operandType : IrType) :
    Except CheckError IrType := do
  let (isUniform, src) ← operandType.deconstructQualifiedType
  ensure dst.isDataType "shd_is_data_type(dst_type)"
  let legal ← isLegal src dst
  ensure legal "the cast is legal"
  qualifiedType config isUniform dst

/-- `_shd_check_type_generated`, from the operands up. -/
def checkType : PtrNode → Except CheckError IrType
  | .source _ isUniform type => qualifiedType config isUniform type
  | .reinterpretOp dst operand => do
      let operandType ← checkType operand
      checkCast config (IrType.isReinterpretCastLegal config) dst operandType
  | .convertOp dst operand => do
      let operandType ← checkType operand
      checkCast config (IrType.isConversionLegal config) dst operandType
  | .ptrCompositeElement ptr index => do
      let ptrType ← checkType ptr
      checkPtrCompositeElement config ptrType index
  | .ptrArrayElementOffset ptr offset => do
      let ptrType ← checkType ptr
      checkPtrArrayElementOffset config ptrType offset
  | .load ptr => do
      let ptrType ← checkType ptr
      checkLoad config ptrType
  | .store ptr value => do
      let ptrType ← checkType ptr
      checkStore config ptrType value.type
  | .call callee args => do
      let calleeType ← checkType callee
      return maybeMultipleReturn (← checkValueCall calleeType args)
  | .tailCall callee args => do
      let calleeType ← checkType callee
      let returnTypes ← checkValueCall calleeType args
      ensure (decide (returnTypes = .nil)) "check_value_call(..).count == 0"
      return .noRet

end Checks

/-! ## The fold -/

/-- The variables of the loop in `resolve_ptr_source`. -/
structure PtrWalk where
  ptr : PtrNode
  distance : Nat
  specializeGeneric : Bool
  srcAs : AddressSpace

/-- The loop of `resolve_ptr_source`. -/
def walkPtr (config : TypesConfig) : PtrNode → Nat → Bool → AddressSpace → Except CheckError PtrWalk
  | .reinterpretOp _ operand, distance, specializeGeneric, srcAs =>
      walkPtr config operand (distance + 1) specializeGeneric srcAs
  | .convertOp (.ptr _ _ _) operand, distance, specializeGeneric, _ => do
      ensure (!specializeGeneric) "something should not be converted to generic twice!"
      let (_, _, operandSpace, _) ← deconstructPtr (← checkType config operand)
      walkPtr config operand distance true operandSpace
  | .ptrCompositeElement ptr index, distance, specializeGeneric, srcAs =>
      if index.isZero then walkPtr config ptr (distance + 1) specializeGeneric srcAs
      else return ⟨.ptrCompositeElement ptr index, distance, specializeGeneric, srcAs⟩
  | node, distance, specializeGeneric, srcAs => return ⟨node, distance, specializeGeneric, srcAs⟩

/-- A pointer to this type. -/
def pointsTo (pointedType : IrType) : IrType → Bool
  | .ptr pointed _ _ => decide (pointed = pointedType)
  | _ => false

section Fold
variable (config : TypesConfig) (create : PtrNode → Except CheckError PtrNode)

def resolvePtrSource (ptr : PtrNode) : Except CheckError (Option PtrNode) := do
  let (_, pointedType, space, isReference) ← deconstructPtr (← checkType config ptr)
  let walk ← walkPtr config ptr 0 false space
  if walk.distance > 1 || walk.specializeGeneric then
    let (_, srcType) ← (← checkType config walk.ptr).deconstructQualifiedType
    if pointsTo pointedType srcType then return some walk.ptr
    else return some (← create (.reinterpretOp (.ptr pointedType walk.srcAs isReference) walk.ptr))
  else return none

def simplifyPtrOperand (oldOp : PtrNode) : Except CheckError (Option PtrNode) := do
  let (_, _, _, isReference) ← deconstructPtr (← checkType config oldOp)
  if isReference then return none
  else resolvePtrSource config create oldOp

/-- The operand that `fold_simplify_ptr_operand` looks at, and the node with another one. -/
def PtrNode.ptrOperand : PtrNode → Option (PtrNode × (PtrNode → PtrNode))
  | .load ptr => some (ptr, fun nptr => .load nptr)
  | .store ptr value => some (ptr, fun nptr => .store nptr value)
  | .ptrCompositeElement ptr index => some (ptr, fun nptr => .ptrCompositeElement nptr index)
  | .ptrArrayElementOffset ptr offset => some (ptr, fun nptr => .ptrArrayElementOffset nptr offset)
  | .call callee args => some (callee, fun nptr => .call nptr args)
  | .tailCall callee args => some (callee, fun nptr => .tailCall nptr args)
  | _ => none

def foldSimplifyPtrOperand (node : PtrNode) : Except CheckError PtrNode :=
  match node.ptrOperand with
  | none => .ok node
  | some (ptr, withPtr) => do
      match ← simplifyPtrOperand config create ptr with
      | none => return node
      | some nptr =>
          let r ← create (withPtr nptr)
          let type ← checkType config node
          if type.isSubtype (← checkType config r) then return r
          else
            let (_, dst) ← type.deconstructQualifiedType
            create (.convertOp dst r)

/-- The last check of `_shd_fold_node`. -/
def checkFolded (original node : PtrNode) : Except CheckError PtrNode := do
  ensure ((← checkType config original).isSubtype (← checkType config node))
    "shd_is_subtype(original_node->type, node->type)"
  return node

/-- `_shd_fold_node` -/
def foldPtrNode (original : PtrNode) : Except CheckError PtrNode := do
  match ← foldSimplifyPtrOperand config create original with
  | .ptrArrayElementOffset ptr offset =>
      if offset.isZero then return ptr
      else checkFolded config original (.ptrArrayElementOffset ptr offset)
  | .reinterpretOp dst operand => do
      let (_, src) ← (← checkType config operand).deconstructQualifiedType
      checkFolded config original (if dst = src then operand else .reinterpretOp dst operand)
  | .convertOp dst operand => do
      let (_, src) ← (← checkType config operand).deconstructQualifiedType
      checkFolded config original (if dst = src then operand else .convertOp dst operand)
  | node => checkFolded config original node

end Fold

/-- The creation of a node, with the nodes that its folding creates. -/
def createPtrNode (config : TypesConfig) : Nat → PtrNode → Except CheckError PtrNode
  | 0, _ => .error .outOfFuel
  | fuel + 1, node => do
      let _ ← checkType config node
      foldPtrNode config (createPtrNode config fuel) node

end Shady
