import Shady.Ir.DataType

/-!
# Types of pointers

The type nodes with the pointed types of pointers, as the casts, the accesses and the folder
compare them: `src/shady/ir/type.c`, `src/shady/ir/cast.c`, and `shd_enter_composite_type` of
`src/shady/ir/composite.c`. Types are interned, so that one is another if and only if it is
written the same. Blocks, lambdas, join points and images, which stand behind no pointer that
the folder looks at, are left out, and so is the check of `ptr_type` on its address space: the
folder only makes types with the address spaces of others.
-/

set_option autoImplicit false

namespace Shady

inductive RecordSpecial
  | notSpecial
  | multipleReturn
  | decorateBlock
  deriving DecidableEq

mutual
inductive IrType
  | maskType
  | noRet
  | int (width : IntSizes) (isSigned : Bool)
  | float (width : FloatSizes)
  | bool
  | qualified (isUniform : Bool) (type : IrType)
  | ptr (pointedType : IrType) (addressSpace : AddressSpace) (isReference : Bool)
  /-- `size` is the literal that the size resolves to, where there is a size. -/
  | arr (elementType : IrType) (size : Option IntLiteral)
  | pack (elementType : IrType) (width : Nat)
  | record (members : IrTypes) (special : RecordSpecial)
  /-- A nominal type stands with its body. -/
  | typeDeclRef (decl : Nat) (body : IrType)
  | fn (paramTypes returnTypes : IrTypes)
  deriving DecidableEq
inductive IrTypes
  | nil
  | cons (head : IrType) (tail : IrTypes)
  deriving DecidableEq
end

/-- What the checks read of the configuration of an arena. -/
structure TypesConfig where
  physical : AddressSpace → Bool
  ptrSize : IntSizes
  isSimt : Bool

inductive CheckError
  | assertion (condition : String)
  | died (message : String)
  /-- The bound on the nesting of the model is used up. -/
  | outOfFuel
  deriving DecidableEq

def ensure (condition : Bool) (text : String) : Except CheckError Unit :=
  if condition then .ok () else .error (.assertion text)

namespace IrTypes

def toList : IrTypes → List IrType
  | .nil => []
  | .cons head tail => head :: tail.toList

end IrTypes

namespace IrType

/-! ## Subtypes -/

mutual
/-- `shd_is_subtype` -/
def isSubtype (supertype type : IrType) : Bool :=
  decide (type = supertype) ||
    match supertype, type with
    | .qualified superUniform super, .qualified isUniform sub =>
        !(superUniform && !isUniform) && isSubtype super sub
    | .record superMembers superSpecial, .record members special =>
        areSubtypes superMembers members && decide (superSpecial = special)
    | .fn superParams superReturns, .fn params returns =>
        areSubtypes superReturns returns && areSubtypes params superParams
    | .ptr superPointed superSpace superReference, .ptr pointed space isReference =>
        decide (superSpace = space) && !(!superReference && isReference) && isSubtype superPointed pointed
    | .arr superElement superSize, .arr element size =>
        isSubtype superElement element &&
          ((superSize.any fun literal => literal.value == 0) || decide (superSize = size) || superSize.isNone)
    | .pack superElement superWidth, .pack element width =>
        isSubtype superElement element && decide (superWidth = width)
    | .typeDeclRef superDecl _, .typeDeclRef decl _ => decide (superDecl = decl)
    | _, _ => false
termination_by sizeOf supertype + sizeOf type

def areSubtypes (supertypes types : IrTypes) : Bool :=
  match supertypes, types with
  | .nil, .nil => true
  | .cons supertype supertypes, .cons type types => isSubtype supertype type && areSubtypes supertypes types
  | _, _ => false
termination_by sizeOf supertypes + sizeOf types
end

/-! ## Classes of types -/

mutual
/-- `shd_is_data_type` -/
def isDataType : IrType → Bool
  | .maskType => true
  | .int _ _ => true
  | .float _ => true
  | .bool => true
  | .ptr _ _ _ => true
  | .arr _ size => size.isSome
  | .pack elementType _ => isDataType elementType
  | .record members special => areDataTypes members && decide (special = .notSpecial)
  | .typeDeclRef _ body => isDataType body
  | .qualified _ _ => false
  | .fn _ _ => false
  | .noRet => false

def areDataTypes : IrTypes → Bool
  | .nil => true
  | .cons head tail => isDataType head && areDataTypes tail
end

/-- `shd_is_arithm_type` -/
def isArithmType : IrType → Bool
  | .int _ _ => true
  | .float _ => true
  | _ => false

/-- `shd_is_physical_ptr_type` -/
def isPhysicalPtrType : IrType → Bool
  | .ptr _ _ isReference => !isReference
  | _ => false

/-- `shd_is_generic_ptr_type` -/
def isGenericPtrType : IrType → Bool
  | .ptr _ space _ => decide (space = .generic)
  | _ => false

/-- `shd_get_type_bitwidth`; no width stands for `SIZE_MAX`. -/
def bitwidth (config : TypesConfig) : IrType → Option Nat
  | .int width _ => some width.bits
  | .float width => some (width.sizeInBytes * 8)
  | .ptr _ space _ => if config.physical space then some config.ptrSize.bits else none
  | _ => none

/-- `shd_deconstruct_qualified_type` -/
def deconstructQualifiedType : IrType → Except CheckError (Bool × IrType)
  | .qualified isUniform type => .ok (isUniform, type)
  | _ => .error (.died "Expected a value type (annotated with qual_type)")

end IrType

/-- `shd_is_addr_space_uniform` -/
def TypesConfig.isAddrSpaceUniform (config : TypesConfig) : AddressSpace → Bool
  | .generic => !config.isSimt
  | .input => !config.isSimt
  | .output => !config.isSimt
  | .function => !config.isSimt
  | .priv => !config.isSimt
  | _ => true

/-- `_shd_check_type_qualified_type` -/
def qualifiedType (config : TypesConfig) (isUniform : Bool) (type : IrType) : Except CheckError IrType := do
  ensure type.isDataType "shd_is_data_type(qualified_type.type)"
  ensure (config.isSimt || isUniform) "arena->config.is_simt || qualified_type.is_uniform"
  return .qualified isUniform type

/-! ## Casts -/

/-- `shd_is_reinterpret_cast_legal` -/
def IrType.isReinterpretCastLegal (config : TypesConfig) (src dst : IrType) : Except CheckError Bool := do
  ensure (src.isDataType && dst.isDataType) "shd_is_data_type(src_type) && shd_is_data_type(dst_type)"
  if src = dst then return true
  else if !(src.isArithmType || decide (src = .maskType) || src.isPhysicalPtrType) then return false
  else if !(dst.isArithmType || decide (dst = .maskType) || dst.isPhysicalPtrType) then return false
  else
    ensure (decide (src.bitwidth config = dst.bitwidth config))
      "shd_get_type_bitwidth(src_type) == shd_get_type_bitwidth(dst_type)"
    return !((src.isPhysicalPtrType && dst.isPhysicalPtrType) && (src.isGenericPtrType != dst.isGenericPtrType))

/-- The pointed types of two pointers are the same. -/
def IrType.samePointedType : IrType → IrType → Bool
  | .ptr srcPointed _ _, .ptr dstPointed _ _ => decide (srcPointed = dstPointed)
  | _, _ => true

/-- An integer conversion changes the sign together with the width. -/
def IrType.changesSignAndWidth : IrType → IrType → Bool
  | .int srcWidth srcSigned, .int dstWidth dstSigned => srcSigned != dstSigned && decide (srcWidth ≠ dstWidth)
  | _, _ => false

/-- `shd_is_conversion_legal` -/
def IrType.isConversionLegal (config : TypesConfig) (src dst : IrType) : Except CheckError Bool := do
  ensure (src.isDataType && dst.isDataType) "shd_is_data_type(src_type) && shd_is_data_type(dst_type)"
  let sameWidth := decide (src.bitwidth config = dst.bitwidth config)
  if !(src.isArithmType || (src.isPhysicalPtrType && sameWidth)) then return false
  else if !(dst.isArithmType || (dst.isPhysicalPtrType && sameWidth)) then return false
  else if src.isPhysicalPtrType != dst.isPhysicalPtrType then return false
  else if src.isGenericPtrType && dst.isGenericPtrType then return false
  else if src.changesSignAndWidth dst then return false
  else return !(src.isPhysicalPtrType && dst.isPhysicalPtrType && !src.samePointedType dst)

/-! ## Selectors -/

/-- An index or an offset, which is an integer. -/
inductive Selector
  | literal (value : IntLiteral)
  /-- Any other value, with the literal that `shd_resolve_to_int_literal` finds for it. -/
  | value (id : Nat) (isUniform : Bool) (literal : Option IntLiteral)
  deriving DecidableEq

namespace Selector

def isUniform : Selector → Bool
  | .literal _ => true
  | .value _ isUniform _ => isUniform

/-- `shd_resolve_to_int_literal` -/
def resolved : Selector → Option IntLiteral
  | .literal lit => some lit
  | .value _ _ lit => lit

/-- `is_zero` -/
def isZero (selector : Selector) : Bool :=
  selector.resolved.any fun lit => getIntLiteralValue lit false == 0

end Selector

/-- The member at a position. -/
def IrTypes.member? : IrTypes → Nat → Option IrType
  | .nil, _ => none
  | .cons head _, 0 => some head
  | .cons _ tail, index + 1 => tail.member? index

/-- `shd_enter_composite_type`, without the uniformity of the selector. -/
def IrType.enterCompositeType (type : IrType) (selector : Selector) : Except CheckError IrType :=
  match type with
  | .record members _ =>
      match selector.resolved with
      | none => .error (.assertion "A literal is read through NULL")
      | some literal =>
          match members.member? (getIntLiteralValue literal false).toNat with
          | none => .error (.assertion "selector_value < current_type->payload.record_type.members.count")
          | some member => .ok member
  | .arr elementType _ => .ok elementType
  | .typeDeclRef _ body => body.enterCompositeType selector
  | .pack elementType width =>
      match selector with
      | .literal literal => do
          ensure (decide ((getIntLiteralValue literal false).toNat < width))
            "selector_value < current_type->payload.pack_type.width"
          return elementType
      | .value _ _ _ => .error (.assertion "selectors when indexing into a pack type need to be constant")
  | _ => .error (.died "Trying to enter non-composite type")

end Shady
