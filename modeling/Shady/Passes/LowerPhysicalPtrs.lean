import Shady.Ir.MemoryLayout
import Shady.Library.WordArray

/-!
# Serialisation into emulated memory

Model of `gen_serialisation` and `gen_deserialisation` in
`src/shady/passes/lower_physical_ptrs.c`: what the generated code does to the array of
words behind an address space. Code that cannot be generated is no result. Addresses and
offsets are unsigned integers of the width of pointers.
-/

set_option autoImplicit false

namespace Shady

/-- A value in a register. Integers, floats and pointers are their bits. -/
inductive StoredValue
  | scalar (bits : Nat)
  | bool (value : Bool)
  | composite (components : List StoredValue)

/-- The words of an emulated address space. -/
abbrev WordArray (config : PointerModel) := WordArray.Words config.wordSize.bits

/-- `shd_float_to_int_width` -/
def floatToIntWidth : FloatSizes → IntSizes
  | .floatTy16 => .intTy16
  | .floatTy32 => .intTy32
  | .floatTy64 => .intTy64

section Generators
variable (config : PointerModel)

/-- `add_op` on two addresses -/
def ptrAdd (a b : Nat) : Nat := (a + b) % 2 ^ config.ptrSize.bits

/-- `shd_bytes_to_words` -/
def bytesToWords (bytes : Nat) : Nat := bytes / config.wordSize.sizeInBytes

/-- How often the loops over the words of an integer turn. -/
def wordTurns (width : IntSizes) : Nat :=
  (width.sizeInBytes + config.wordSize.sizeInBytes - 1) / config.wordSize.sizeInBytes

/-- `shift + word_bitwidth`, both literals of the width of the integer -/
def nextShift (width : IntSizes) (shift : Nat) : Nat :=
  (shift + config.wordSize.sizeInBytes * 8) % 2 ^ width.bits

/-! ## Stores -/

def storeTurns (width : IntSizes) (value : Nat) :
    Nat → Nat → Nat → WordArray config → WordArray config
  | 0, _, _, words => words
  | turns + 1, offset, shift, words =>
      storeTurns width value turns (ptrAdd config offset 1) (nextShift config width shift)
        (Function.update words offset (BitVec.ofNat config.wordSize.bits (value >>> shift)))

/-- `ser_int` in `gen_serialisation` -/
def serialiseInt (width : IntSizes) (address value : Nat) (words : WordArray config) :
    WordArray config :=
  storeTurns config width value (wordTurns config width) (bytesToWords config address) 0 words

/-- The loop over the components of an array. -/
def serialiseComponents (store : Nat → StoredValue → WordArray config → Option (WordArray config))
    (stride : Option TypeMemLayout) :
    List StoredValue → Nat → WordArray config → Option (WordArray config)
  | [], _, words => some words
  | component :: components, offset, words => do
      let words ← store offset component words
      let layout ← stride
      serialiseComponents store stride components (ptrAdd config offset layout.sizeInBytes) words

mutual

/-- `gen_serialisation` -/
def genSerialisation :
    DataType → Nat → StoredValue → WordArray config → Option (WordArray config)
  | .bool, address, .bool value, words =>
      -- the word at this index, not the one at this address, and zero for true
      some (Function.update words address (BitVec.ofNat _ (if value then 0 else 1)))
  | .ptr .global, address, .scalar bits, words =>
      some (serialiseInt config config.ptrSize address bits words)
  | .int width _, address, .scalar bits, words =>
      some (serialiseInt config width address bits words)
  | .float width, address, .scalar bits, words =>
      some (serialiseInt config (floatToIntWidth width) address bits words)
  | .record members, address, .composite components, words =>
      serialiseMembers members members 0 address components words
  | .typeDeclRef body, address, value, words => genSerialisation body address value words
  | .arr elementType (some size), address, .composite components, words =>
      if components.length = literalCount size then
        serialiseComponents config (genSerialisation elementType) (getMemLayout config elementType)
          components address words
      else none
  | .pack elementType width, address, .composite components, words =>
      if components.length = width.toNat then
        serialiseComponents config (genSerialisation elementType) (getMemLayout config elementType)
          components address words
      else none
  | _, _, _, _ => none

/-- The loop over the members of `record`, from member `i` on. -/
def serialiseMembers (record : List DataType) :
    List DataType → Nat → Nat → List StoredValue → WordArray config → Option (WordArray config)
  | [], _, _, [], words => some words
  | member :: members, i, address, component :: components, words => do
      let fieldOffset ← getRecordFieldOffsetInBytes config record i
      let words ← genSerialisation member (ptrAdd config address fieldOffset) component words
      serialiseMembers record members (i + 1) address components words
  | _, _, _, _, _ => none

end

/-! ## Loads -/

def loadTurns (width : IntSizes) (words : WordArray config) : Nat → Nat → Nat → Nat → Nat
  | 0, _, _, acc => acc
  | turns + 1, offset, shift, acc =>
      let word := (words offset).toNat % 2 ^ width.bits
      loadTurns width words turns (ptrAdd config offset 1) (nextShift config width shift)
        (acc ||| (word <<< shift) % 2 ^ width.bits)

/-- `ser_int` in `gen_deserialisation` -/
def deserialiseInt (width : IntSizes) (address : Nat) (words : WordArray config) : Nat :=
  loadTurns config width words (wordTurns config width) (bytesToWords config address) 0 0

/-- The loop over the components of an array. -/
def deserialiseComponents (load : Nat → Option StoredValue) (stride : Option TypeMemLayout) :
    Nat → Nat → Option (List StoredValue)
  | 0, _ => some []
  | count + 1, offset => do
      let component ← load offset
      let layout ← stride
      let components ←
        deserialiseComponents load stride count (ptrAdd config offset layout.sizeInBytes)
      some (component :: components)

mutual

/-- `gen_deserialisation` -/
def genDeserialisation (words : WordArray config) : DataType → Nat → Option StoredValue
  | .bool, address => some (.bool (words address != 0))
  | .ptr .global, address => some (.scalar (deserialiseInt config config.ptrSize address words))
  | .int width _, address => some (.scalar (deserialiseInt config width address words))
  | .float width, address =>
      some (.scalar (deserialiseInt config (floatToIntWidth width) address words))
  -- the body of a named type is taken for a record
  | .typeDeclRef (.record members), address => do
      let components ← deserialiseMembers words members members 0 address
      some (.composite components)
  | .record members, address => do
      let components ← deserialiseMembers words members members 0 address
      some (.composite components)
  | .arr elementType (some size), address => do
      let components ← deserialiseComponents config (genDeserialisation words elementType)
        (getMemLayout config elementType) (literalCount size) address
      some (.composite components)
  | .pack elementType width, address => do
      let components ← deserialiseComponents config (genDeserialisation words elementType)
        (getMemLayout config elementType) width.toNat address
      some (.composite components)
  | _, _ => none

/-- The loop over the members of `record`, from member `i` on. -/
def deserialiseMembers (words : WordArray config) (record : List DataType) :
    List DataType → Nat → Nat → Option (List StoredValue)
  | [], _, _ => some []
  | member :: members, i, address => do
      let fieldOffset ← getRecordFieldOffsetInBytes config record i
      let component ← genDeserialisation words member (ptrAdd config address fieldOffset)
      let components ← deserialiseMembers words record members (i + 1) address
      some (component :: components)

end

end Generators

/-! ## Types and values -/

mutual

/-- The values of a type. -/
def HasType (config : PointerModel) : DataType → StoredValue → Prop
  | .bool, .bool _ => True
  | .ptr _, .scalar bits => bits < 2 ^ config.ptrSize.bits
  | .int width _, .scalar bits => bits < 2 ^ width.bits
  | .float width, .scalar bits => bits < 2 ^ (floatToIntWidth width).bits
  | .record members, .composite components => HaveTypes config members components
  | .typeDeclRef body, value => HasType config body value
  | .qualified _ type, value => HasType config type value
  | .arr elementType (some size), .composite components =>
      components.length = literalCount size ∧ ∀ v ∈ components, HasType config elementType v
  | .pack elementType width, .composite components =>
      components.length = width.toNat ∧ ∀ v ∈ components, HasType config elementType v
  | _, _ => False

def HaveTypes (config : PointerModel) : List DataType → List StoredValue → Prop
  | [], [] => True
  | member :: members, component :: components =>
      HasType config member component ∧ HaveTypes config members components
  | _, _ => False

end

mutual

/-- The types that the generators have a case for. -/
def Emulated : DataType → Prop
  | .bool => True
  | .int _ _ => True
  | .float _ => True
  | .ptr addressSpace => addressSpace = .global
  | .record members => AllEmulated members
  | .typeDeclRef body => Emulated body
  | .arr elementType size => size.isSome ∧ Emulated elementType
  | .pack elementType _ => Emulated elementType
  | _ => False

def AllEmulated : List DataType → Prop
  | [] => True
  | member :: members => Emulated member ∧ AllEmulated members

end

/-- The byte of memory at an address, the lowest byte of a word first. -/
def byteAt {config : PointerModel} (words : WordArray config) (address : Nat) : Nat :=
  (words (address / config.wordSize.sizeInBytes)).toNat /
    2 ^ (8 * (address % config.wordSize.sizeInBytes)) % 2 ^ 8

end Shady
