import Shady.Ir.IntLiteral

/-!
# Types

The type nodes as far as their layout in memory goes: names of members and the pointed
types of pointers, which no layout reads, are left out. A reference to a nominal type
stands with the body of its declaration.
-/

set_option autoImplicit false

namespace Shady

inductive AddressSpace
  | generic
  | global
  | shared
  | subgroup
  | priv
  | input
  | uInput
  | output
  | external
  | pushConstant
  | function
  | shaderStorageBufferObject
  | uniform
  | uniformConstant
  | image
  | debugInfo
  deriving DecidableEq

inductive FloatSizes
  | floatTy16
  | floatTy32
  | floatTy64
  deriving DecidableEq

/-- `float_size_in_bytes` -/
def FloatSizes.sizeInBytes : FloatSizes → Nat
  | .floatTy16 => 2
  | .floatTy32 => 4
  | .floatTy64 => 8

inductive DataType
  | int (width : IntSizes) (isSigned : Bool)
  | float (width : FloatSizes)
  | bool
  | ptr (addressSpace : AddressSpace)
  /-- `size` is the literal that the size resolves to, if there is one. -/
  | arr (elementType : DataType) (size : Option IntLiteral)
  | pack (elementType : DataType) (width : BitVec 32)
  | record (members : List DataType)
  | qualified (isUniform : Bool) (type : DataType)
  | typeDeclRef (body : DataType)
  | fn
  /-- `MaskType`, `JoinPointType` and the others that have no layout. -/
  | other

/-- `PointerModel` -/
structure PointerModel where
  ptrSize : IntSizes
  wordSize : IntSizes
  deriving DecidableEq

end Shady
