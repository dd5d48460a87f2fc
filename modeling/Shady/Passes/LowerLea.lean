import Shady.Passes.LowerPhysicalPtrs

/-!
# Addresses of elements

Model of `src/shady/passes/lower_lea.c`: what the generated address arithmetic computes for
a chain of element steps, with the types of the pointers in between. A step that the pass
gives an error for has no result.
-/

set_option autoImplicit false

namespace Shady

/-- An offset or an index: a literal, or an integer of some type known at run time. -/
inductive IndexOperand
  | literal (lit : IntLiteral)
  | dynamic (type : IntType) (value : Int)

namespace IndexOperand

def type : IndexOperand → IntType
  | .literal lit => lit.type
  | .dynamic type _ => type

/-- The integer at run time. -/
def denotes : IndexOperand → Int
  | .literal lit => lit.denotes
  | .dynamic type value => type.wrap value

/-- `shd_resolve_to_int_literal` -/
def resolve : IndexOperand → Option IntLiteral
  | .literal lit => some lit
  | .dynamic _ _ => none

end IndexOperand

inductive LeaStep
  | ptrArrayElementOffset (offset : IndexOperand)
  | ptrCompositeElement (index : IndexOperand)

section Pass
variable (config : PointerModel)

/-- `shd_bld_convert_int_extend_according_to_src_t` to the type of emulated pointers -/
def convertIndex (index : IndexOperand) : Nat :=
  let extended := IntType.wrap ⟨config.ptrSize, index.type.isSigned⟩ index.denotes
  (IntType.pattern ⟨config.ptrSize, false⟩ extended).toNat

/-- `mul_op` on an index and a size -/
def ptrMul (a b : Nat) : Nat := a * b % 2 ^ config.ptrSize.bits

/-- `lower_ptr_index` -/
def lowerPtrIndex (pointedType : DataType) (base : Nat) (index : IndexOperand) : Option Nat :=
  match pointedType with
  | .arr elementType _ => do
      let layout ← getMemLayout config elementType
      some (ptrAdd config base (ptrMul config (convertIndex config index) layout.sizeInBytes))
  -- a named type falls through to the records
  | .typeDeclRef (.record members) | .record members => do
      let selector ← index.resolve
      let n := selector.value.toNat
      if n < members.length then do
        let offsetOf ← getRecordFieldOffsetInBytes config members n
        some (ptrAdd config base offsetOf)
      else none
  | _ => none

/-- `lower_ptr_offset` -/
def lowerPtrOffset (pointedType : DataType) (base : Nat) (offset : IndexOperand) : Option Nat :=
  if offset.resolve.any fun lit => lit.value == 0 then some base
  else do
    let layout ← getMemLayout config pointedType
    some (ptrAdd config base (ptrMul config (convertIndex config offset) layout.sizeInBytes))

/-- `shd_enter_composite_type`, the type that an element pointer points to -/
def enterCompositeType : DataType → IndexOperand → Option DataType
  | .record members, index => do
      let selector ← index.resolve
      members[(getIntLiteralValue selector false).toNat]?
  | .arr elementType _, _ => some elementType
  | .typeDeclRef body, index => enterCompositeType body index
  | .pack elementType width, index => do
      let selector ← index.resolve
      if (getIntLiteralValue selector false).toNat < width.toNat then some elementType else none
  | _, _ => none

/-- One node that `process` lowers, from the pointed type and the lowered address. -/
def lowerStep : DataType × Nat → LeaStep → Option (DataType × Nat)
  | (pointedType, base), .ptrArrayElementOffset offset => do
      let address ← lowerPtrOffset config pointedType base offset
      some (pointedType, address)
  | (pointedType, base), .ptrCompositeElement index => do
      let elementType ← enterCompositeType pointedType index
      let address ← lowerPtrIndex config pointedType base index
      some (elementType, address)

def lowerChain (pointedType : DataType) (base : Nat) (steps : List LeaStep) :
    Option (DataType × Nat) := steps.foldlM (lowerStep config) (pointedType, base)

end Pass

/-! ## What a chain stands for -/

/-- The type of a component that a pointer can be moved to. -/
def DataType.component : DataType → Nat → Option DataType
  | .arr elementType (some size), i => if i < literalCount size then some elementType else none
  | .record members, i => members[i]?
  | .typeDeclRef body, i => body.component i
  | _, _ => none

def DataType.at : DataType → List Nat → Option DataType
  | type, [] => some type
  | type, i :: path => do
      let component ← type.component i
      component.at path

/-- The chain stays inside of `root` and leads to the element at the path, of the type. -/
inductive Denotes (root : DataType) : List LeaStep → List Nat → DataType → Prop
  | root : Denotes root [] [] root
  /-- An index into an array is any integer, that into a record a literal. -/
  | arrayElement {steps path elementType} {size : IntLiteral} {index : IndexOperand} {i : Nat} :
      Denotes root steps path (.arr elementType (some size)) → index.denotes = i →
      i < literalCount size →
      Denotes root (steps ++ [.ptrCompositeElement index]) (path ++ [i]) elementType
  | member {steps path type member} {selector : IntLiteral} :
      Denotes root steps path type →
      (∃ members, type = .record members ∨ type = .typeDeclRef (.record members)) →
      selector.Canonical → type.component selector.value.toNat = some member →
      Denotes root (steps ++ [.ptrCompositeElement (.literal selector)])
        (path ++ [selector.value.toNat]) member
  /-- From one element of an array to another. -/
  | arrayOffset {steps path elementType} {size : IntLiteral} {offset : IndexOperand} {i j : Nat} :
      Denotes root steps (path ++ [i]) elementType →
      root.at path = some (.arr elementType (some size)) → (i : Int) + offset.denotes = j →
      j < literalCount size →
      Denotes root (steps ++ [.ptrArrayElementOffset offset]) (path ++ [j]) elementType
  | stay {steps path type} {offset : IndexOperand} :
      Denotes root steps path type → offset.denotes = 0 →
      Denotes root (steps ++ [.ptrArrayElementOffset offset]) path type

/-- `extract_op` along a path -/
def StoredValue.extract : StoredValue → List Nat → Option StoredValue
  | value, [] => some value
  | .composite components, i :: path => do
      let component ← components[i]?
      component.extract path
  | _, _ => none

/-- `insert_op` along a path -/
def StoredValue.insert : StoredValue → List Nat → StoredValue → Option StoredValue
  | _, [], inserted => some inserted
  | .composite components, i :: path, inserted => do
      let component ← components[i]?
      let replaced ← component.insert path inserted
      some (.composite (components.set i replaced))
  | _, _, _ => none

section Placement
variable (config : PointerModel)

/-- The address that `gen_serialisation` hands on for a component. -/
def componentAddress : DataType → Nat → Nat → Option Nat
  | .record members, address, i => do
      let fieldOffset ← getRecordFieldOffsetInBytes config members i
      some (ptrAdd config address fieldOffset)
  | .typeDeclRef body, address, i => componentAddress body address i
  | .arr elementType _, address, i => do
      let layout ← getMemLayout config elementType
      some ((fun offset => ptrAdd config offset layout.sizeInBytes)^[i] address)
  | _, _, _ => none

def placedAt : DataType → Nat → List Nat → Option Nat
  | _, address, [] => some address
  | type, address, i :: path => do
      let component ← type.component i
      let address ← componentAddress config type address i
      placedAt component address path

/-- The address of a chain is that of its element, and the element is what the bytes of the
aggregate hold there. -/
def AddressesAgree (root : DataType) (address : Nat) : Prop :=
  ∀ steps path type, Denotes root steps path type →
    ∃ element, lowerChain config root address steps = some (type, element) ∧
      placedAt config root address path = some element ∧
      (∀ value words, HasType config root value →
        ∃ stored component, genSerialisation config root address value words = some stored ∧
          value.extract path = some component ∧
          genDeserialisation config stored type element = some component) ∧
      (∀ value words component, genDeserialisation config words root address = some value →
        HasType config type component →
          ∃ stored whole, genSerialisation config type element component words = some stored ∧
            value.insert path component = some whole ∧
            genDeserialisation config stored root address = some whole)

end Placement

end Shady
