import Shady.Ir.IrTypes

/-!
# Subtypes

`shd_is_subtype` of `src/shady/ir/type.c` on all types. Types are interned, so that one is another
if and only if it is written the same. The size of an array is any node; `resolve` is
`shd_resolve_to_int_literal`.
-/

set_option autoImplicit false

namespace Shady.Subtypes

/-- What `Type_ImageType` has beside the sampled type. -/
structure ImageShape where
  depth : Nat
  dim : Nat
  arrayed : Nat
  ms : Nat
  sampled : Nat
  imageformat : Nat
  deriving DecidableEq

mutual
inductive TypeNode (S : Type)
  | maskType
  | noRet
  | int (width : IntSizes) (isSigned : Bool)
  | float (width : FloatSizes)
  | bool
  | sampler
  | qualified (isUniform : Bool) (type : TypeNode S)
  | record (members : TypeNodes S) (names : List String) (special : RecordSpecial)
  | joinPoint (yieldTypes : TypeNodes S)
  | fn (paramTypes returnTypes : TypeNodes S)
  | bb (paramTypes : TypeNodes S)
  | lam (paramTypes : TypeNodes S)
  | ptr (addressSpace : AddressSpace) (pointedType : TypeNode S) (isReference : Bool)
  | arr (elementType : TypeNode S) (size : Option S)
  | pack (elementType : TypeNode S) (width : Nat)
  | typeDeclRef (decl : Nat)
  | image (sampledType : TypeNode S) (shape : ImageShape)
  | sampledImage (imageType : TypeNode S)
  deriving DecidableEq
inductive TypeNodes (S : Type)
  | nil
  | cons (head : TypeNode S) (tail : TypeNodes S)
  deriving DecidableEq
end

section Subtypes

variable {S : Type} [DecidableEq S] (resolve : S → Option IntLiteral)

mutual
/-- `shd_is_subtype` -/
def isSubtype (supertype type : TypeNode S) : Bool :=
  decide (type = supertype) ||
    match supertype, type with
    | .qualified superUniform super, .qualified isUniform sub =>
        if superUniform && !isUniform then false else isSubtype super sub
    | .record superMembers _ superSpecial, .record members _ special =>
        areSubtypes superMembers members && decide (superSpecial = special)
    | .joinPoint superYields, .joinPoint yields => areSubtypes yields superYields
    | .fn superParams superReturns, .fn params returns =>
        areSubtypes superReturns returns && areSubtypes params superParams
    | .bb superParams, .bb params => areSubtypes params superParams
    | .lam superParams, .lam params => areSubtypes params superParams
    | .ptr superSpace superPointed superReference, .ptr space pointed isReference =>
        if superSpace ≠ space then false
        else if !superReference && isReference then false
        else isSubtype superPointed pointed
    | .int superWidth superSigned, .int width isSigned =>
        decide (superWidth = width) && decide (superSigned = isSigned)
    | .arr superElement superSize, .arr element size =>
        isSubtype superElement element &&
          ((superSize.bind resolve).any (fun literal => literal.value == 0) ||
            decide (superSize = size) || superSize.isNone)
    | .pack superElement superWidth, .pack element width =>
        isSubtype superElement element && decide (superWidth = width)
    | .typeDeclRef superDecl, .typeDeclRef decl => decide (superDecl = decl)
    | .image superSampled superShape, .image sampled shape =>
        isSubtype superSampled sampled && decide (superShape = shape)
    | .sampledImage superImage, .sampledImage image => isSubtype superImage image
    -- the others have the same payload
    | _, _ => false
termination_by sizeOf supertype + sizeOf type

/-- The loops over two lists of types, of one length. -/
def areSubtypes (supertypes types : TypeNodes S) : Bool :=
  match supertypes, types with
  | .nil, .nil => true
  | .cons supertype supertypes, .cons type types =>
      isSubtype supertype type && areSubtypes supertypes types
  | _, _ => false
termination_by sizeOf supertypes + sizeOf types
end

end Subtypes

end Shady.Subtypes
