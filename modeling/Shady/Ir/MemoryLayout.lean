import Shady.Ir.DataType
import Shady.Library.Packing

/-!
# Memory layouts

Model of `src/shady/ir/memory_layout.c`. A `size_t` is a number below `2 ^ 64`, and the
operations that can wrap around do. No layout is an error of the compiler.
-/

set_option autoImplicit false

namespace Shady

structure TypeMemLayout where
  sizeInBytes : Nat
  alignmentInBytes : Nat
  deriving DecidableEq

structure FieldLayout where
  memLayout : TypeMemLayout
  offsetInBytes : Nat
  deriving DecidableEq

def sizeT (n : Nat) : Nat := n % 2 ^ 64

/-- `round_up` -/
def roundUp (a b : Nat) : Nat :=
  if b = 0 then a
  else
    let divided := sizeT (a + b - 1) / b
    sizeT (divided * b)

/-- The count that `shd_get_int_literal_value` reads from the size of an array. -/
def literalCount (size : IntLiteral) : Nat := (getIntLiteralValue size false).toNat

/-- A width with the alignment of at least a word. -/
def scalarLayout (config : PointerModel) (bytes : Nat) : TypeMemLayout :=
  ⟨bytes, max bytes config.wordSize.sizeInBytes⟩

mutual

/-- `shd_get_mem_layout` -/
def getMemLayout (config : PointerModel) : DataType → Option TypeMemLayout
  | .fn => none
  | .ptr addressSpace =>
      match addressSpace with
      | .priv | .subgroup | .shared | .global | .generic =>
          some (scalarLayout config config.ptrSize.sizeInBytes)
      | _ => none
  | .int width _ => some (scalarLayout config width.sizeInBytes)
  | .float width => some (scalarLayout config width.sizeInBytes)
  | .bool => some ⟨config.wordSize.sizeInBytes, config.wordSize.sizeInBytes⟩
  | .arr elementType size => do
      let size ← size
      let element ← getMemLayout config elementType
      some ⟨sizeT (literalCount size * element.sizeInBytes), element.alignmentInBytes⟩
  | .pack elementType width => do
      let element ← getMemLayout config elementType
      some ⟨sizeT (width.toNat * element.sizeInBytes), element.alignmentInBytes⟩
  | .qualified _ type => getMemLayout config type
  | .typeDeclRef body => getMemLayout config body
  | .record members => do
      let (_, offset, maxAlign) ← recordFields config members 0 0
      some ⟨roundUp offset maxAlign, maxAlign⟩
  | .other => none

/-- The loop of `shd_get_record_layout`, from `offset` and `max_align` on. -/
def recordFields (config : PointerModel) :
    List DataType → Nat → Nat → Option (List FieldLayout × Nat × Nat)
  | [], offset, maxAlign => some ([], offset, maxAlign)
  | member :: members, offset, maxAlign => do
      let layout ← getMemLayout config member
      let offset := roundUp offset layout.alignmentInBytes
      let (fields, final) ← recordFields config members (sizeT (offset + layout.sizeInBytes))
        (if layout.alignmentInBytes > maxAlign then layout.alignmentInBytes else maxAlign)
      some (⟨layout, offset⟩ :: fields, final)

end

/-- `shd_get_record_layout` -/
def getRecordLayout (config : PointerModel) (members : List DataType) :
    Option (TypeMemLayout × List FieldLayout) := do
  let (fields, offset, maxAlign) ← recordFields config members 0 0
  some (⟨roundUp offset maxAlign, maxAlign⟩, fields)

/-- `shd_get_record_field_offset_in_bytes` -/
def getRecordFieldOffsetInBytes (config : PointerModel) (members : List DataType) (i : Nat) :
    Option Nat := do
  let (_, fields) ← getRecordLayout config members
  let field ← fields[i]?
  some field.offsetInBytes

end Shady
