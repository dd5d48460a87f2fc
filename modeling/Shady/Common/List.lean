import Mathlib.Algebra.Group.Nat.Defs
import Shady.Library.Buffer

/-!
# Growing lists

Model of `src/common/list.c`: the elements of a list stand one behind another in the bytes that it
allocated. What `realloc` leaves in new bytes is the parameter `fill`. On the platform a pointer has
eight bytes, and arrays of local variables are pointers to `alloca` (`portability.h` without
`USE_VLAS`).
-/

set_option autoImplicit false

namespace Shady.Lists

open Buffer

abbrev Byte := BitVec 8

structure CList where
  elementsCount : Nat
  space : Nat
  elementSize : Nat
  alloc : List Byte

inductive ListError
  | outOfBounds
  | assertion (text : String)

def inBounds {α : Type} : Option α → Except ListError α
  | some a => .ok a
  | none => .error .outOfBounds

/-- A difference of two `size_t`. -/
def subSize (a b : Nat) : Nat := if b ≤ a then a - b else 2 ^ 64 - (b - a)

section Operations

variable (fill : Nat → Byte)

/-- `realloc` to a greater size. -/
def realloc (alloc : List Byte) (size : Nat) : List Byte :=
  alloc ++ (List.range' alloc.length (size - alloc.length)).map fill

def shdNewListImpl (elemSize : Nat) : CList :=
  ⟨0, 8, elemSize, realloc fill [] (elemSize * 8)⟩

def growList (list : CList) : CList :=
  { list with
    space := list.space * 2
    alloc := realloc fill list.alloc (list.space * 2 * list.elementSize) }

/-- The list in front of an operation that adds an element. -/
def growIfFull (list : CList) : CList :=
  if list.elementsCount = list.space then growList fill list else list

def shdListAppendImpl (list : CList) (element : List Byte) : Except ListError CList := do
  let list := growIfFull fill list
  let copied ← inBounds (read element 0 list.elementSize)
  let alloc ← inBounds (write list.alloc (list.elementSize * list.elementsCount) copied)
  return { list with alloc := alloc, elementsCount := list.elementsCount + 1 }

/-- The element is read where the result points. -/
def shdListPopImpl (list : CList) : Except ListError (CList × List Byte) :=
  if list.elementsCount = 0 then .error (.assertion "list->elements_count > 0")
  else do
    let list := { list with elementsCount := list.elementsCount - 1 }
    let last ← inBounds (read list.alloc (list.elementsCount * list.elementSize) list.elementSize)
    return (list, last)

def shdListInsertImpl (list : CList) (index : Nat) (element : List Byte) :
    Except ListError CList := do
  let oldElementsCount := list.elementsCount
  let list := growIfFull fill list
  let insertAt := list.elementSize * index
  let dst := list.elementSize * (index + 1)
  let amount := subSize oldElementsCount index
  let alloc ← inBounds (move list.alloc dst insertAt (list.elementSize * amount))
  let copied ← inBounds (read element 0 list.elementSize)
  let alloc ← inBounds (write alloc insertAt copied)
  return { list with alloc := alloc, elementsCount := list.elementsCount + 1 }

/-- `sizeof(char*)`: what the address of `temp` leads to. -/
def pointerSize : Nat := 8

/-- The removed element, kept in the variable `temp`. -/
def keepTemp (list : CList) (holeAt : Nat) (moveToEnd : Bool) : Except ListError (List Byte) :=
  let temp := List.replicate pointerSize 0
  if moveToEnd then do
    let removed ← inBounds (read list.alloc holeAt list.elementSize)
    inBounds (write temp 0 removed)
  else return temp

def shdListRemoveImpl (list : CList) (index : Nat) (moveToEnd : Bool) :
    Except ListError (CList × Option (List Byte)) := do
  let oldElementsCount := list.elementsCount
  let holeAt := list.elementSize * index
  let fillWith := list.elementSize * (index + 1)
  -- one element more than there is behind the hole
  let amount := subSize oldElementsCount index
  let temp ← keepTemp list holeAt moveToEnd
  let alloc ← inBounds (move list.alloc holeAt fillWith (list.elementSize * amount))
  let list := { list with alloc := alloc, elementsCount := list.elementsCount - 1 }
  if moveToEnd then
    let copied ← inBounds (read temp 0 list.elementSize)
    let alloc ← inBounds (write list.alloc (list.elementSize * list.elementsCount) copied)
    let list := { list with alloc := alloc }
    let last ← inBounds (read list.alloc (list.elementSize * list.elementsCount) list.elementSize)
    return (list, some last)
  else return (list, none)

def shdClearList (list : CList) : CList := { list with elementsCount := 0 }

end Operations

/-! ## Sequences of operations -/

/-- An element has the bytes of its type. -/
abbrev Element (size : Nat) := { bytes : List Byte // bytes.length = size }

inductive Op (size : Nat)
  | append (element : Element size)
  | pop
  | insert (index : Nat) (element : Element size)
  /-- `shd_list_remove_impl` without `move_to_end` -/
  | delete (index : Nat)
  /-- `shd_list_remove_impl` with `move_to_end` -/
  | remove (index : Nat)
  | clear

/-- One operation, and the bytes that its caller reads. -/
def step {size : Nat} (fill : Nat → Byte) (list : CList) : Op size →
    Except ListError (CList × Option (List Byte))
  | .append element => do return (← shdListAppendImpl fill list element.1, none)
  | .pop => do
      let (list, last) ← shdListPopImpl list
      return (list, some last)
  | .insert index element => do return (← shdListInsertImpl fill list index element.1, none)
  | .delete index => shdListRemoveImpl list index false
  | .remove index => shdListRemoveImpl list index true
  | .clear => return (shdClearList list, none)

def run {size : Nat} (fill : Nat → Byte) : CList → List (Op size) →
    Except ListError (CList × List (Option (List Byte)))
  | list, [] => return (list, [])
  | list, op :: rest => do
      let (next, out) ← step fill list op
      let (last, outs) ← run fill next rest
      return (last, out :: outs)

/-- The bytes of the elements, one by one. -/
def CList.content (list : CList) : List (List Byte) :=
  (List.range list.elementsCount).map fun i =>
    (list.alloc.drop (list.elementSize * i)).take list.elementSize

/-! ## Sequences -/

/-- The operation on a sequence, where it has one. -/
def Op.apply {size : Nat} (seq : List (Element size)) : Op size →
    Option (List (Element size) × Option (Element size))
  | .append element => some (seq ++ [element], none)
  | .pop => seq.getLast?.map fun last => (seq.dropLast, some last)
  | .insert index element =>
      if index ≤ seq.length then some (seq.insertIdx index element, none) else none
  | .delete index => if index < seq.length then some (seq.eraseIdx index, none) else none
  | .remove index => seq[index]?.map fun removed => (seq.eraseIdx index, some removed)
  | .clear => some ([], none)

def applyAll {size : Nat} : List (Element size) → List (Op size) →
    Option (List (Element size) × List (Option (Element size)))
  | seq, [] => some (seq, [])
  | seq, op :: rest => do
      let (next, out) ← op.apply seq
      let (last, outs) ← applyAll next rest
      return (last, out :: outs)

/-! ## Room -/

/-- How many elements there are, and there is room for. -/
structure Room where
  count : Nat
  space : Nat

def Room.withOneMore (room : Room) : Room :=
  ⟨room.count + 1, if room.count = room.space then room.space * 2 else room.space⟩

def Op.after {size : Nat} (room : Room) : Op size → Room
  | .append _ => room.withOneMore
  | .insert _ _ => room.withOneMore
  | .pop => { room with count := room.count - 1 }
  | .delete _ => { room with count := room.count - 1 }
  | .remove _ => { room with count := room.count - 1 }
  | .clear => { room with count := 0 }

/-- An element is removed only where there is room for another one, and it is moved to the end only if
it is not larger than a pointer. -/
def Op.Fits {size : Nat} (room : Room) : Op size → Prop
  | .delete _ => size = 0 ∨ room.count < room.space
  | .remove _ => size = 0 ∨ room.count < room.space ∧ size ≤ pointerSize
  | _ => True

def AllFit {size : Nat} : Room → List (Op size) → Prop
  | _, [] => True
  | room, op :: rest => op.Fits room ∧ AllFit (op.after room) rest

end Shady.Lists
