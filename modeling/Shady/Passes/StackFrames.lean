import Shady.Ir.MemoryLayout
import Shady.Library.Transition

/-!
# Frames on the stack

Model of `setup_stack_frames.c` and `lower_alloca.c`, of the pops that `lower_tailcalls.c`
puts in front of a function and the spills of `lift_indirect_targets.c`, and of what
`lower_stack.c` makes of the instructions. Only what bears on the stack is kept of a
function, and a value that is computed at run time is chosen by the run. A function in
which the passes are disabled keeps its allocations and is left out.
-/

set_option autoImplicit false

namespace Shady

/-! ## The passes -/

/-- `Alloca` is what there is of a `StackAlloc`: its type, or its slot. -/
inductive StackInstr (Alloca : Type)
  | stackAlloc (alloca : Alloca)
  | pushStack (type : DataType)
  | popStack (type : DataType)
  | setStackSize
  | call (callee : Nat)

inductive StackTerminator
  | jump (targets : List Nat)
  | fnRet (restores : Bool)
  /-- Those that no stack size is restored before, such as `TailCall` and `Join`. -/
  | leave

structure StackBlock (Alloca : Type) where
  instrs : List (StackInstr Alloca)
  terminator : StackTerminator

structure StackFunction where
  /-- The parameters that are found on the stack. -/
  params : List DataType
  /-- In reverse postorder. -/
  blocks : List (StackBlock DataType)

/-- `process` of `setup_stack_frames.c`, at a terminator -/
def restoreStackSize : StackTerminator → StackTerminator
  | .fnRet _ => .fnRet true
  | .jump targets => .jump targets
  | .leave => .leave

def setupStackFrames (function : StackFunction) : StackFunction :=
  ⟨function.params, function.blocks.map fun block =>
    ⟨block.instrs, restoreStackSize block.terminator⟩⟩

structure StackSlot where
  i : Nat
  offset : Nat
  type : DataType

structure LoweredFunction where
  params : List DataType
  blocks : List (StackBlock StackSlot)
  /-- The record of all slots, the body of the nominal type. -/
  members : List DataType
  frameSize : Nat

/-- A number of bytes as the stack size is kept. -/
def stackPtrT (n : Nat) : Nat := n % 2 ^ 32

def allocaType : StackInstr DataType → Option DataType
  | .stackAlloc type => some type
  | _ => none

/-- `search_operand_for_alloca`: the chain of a block is walked from its end. -/
def searchOperandForAlloca (instrs : List (StackInstr DataType)) : List DataType :=
  (instrs.filterMap allocaType).reverse

section Lower
variable (config : PointerModel)

/-- `process` of `lower_alloca.c`, in a block whose first slot found is `start` -/
def lowerInstrs (members : List DataType) (start : Nat) :
    List (StackInstr DataType) → Option (List (StackInstr StackSlot))
  | [] => some []
  | .stackAlloc type :: rest => do
      let i := start + (searchOperandForAlloca rest).length
      let offset ← getRecordFieldOffsetInBytes config members i
      let lowered ← lowerInstrs members start rest
      some (.stackAlloc ⟨i, offset, type⟩ :: lowered)
  | .pushStack type :: rest => (lowerInstrs members start rest).map (.pushStack type :: ·)
  | .popStack type :: rest => (lowerInstrs members start rest).map (.popStack type :: ·)
  | .setStackSize :: rest => (lowerInstrs members start rest).map (.setStackSize :: ·)
  | .call callee :: rest => (lowerInstrs members start rest).map (.call callee :: ·)

def lowerBlocks (members : List DataType) :
    Nat → List (StackBlock DataType) → Option (List (StackBlock StackSlot))
  | _, [] => some []
  | start, block :: blocks => do
      let instrs ← lowerInstrs config members start block.instrs
      let lowered ←
        lowerBlocks members (start + (searchOperandForAlloca block.instrs).length) blocks
      some (⟨instrs, block.terminator⟩ :: lowered)

def lowerAlloca (function : StackFunction) : Option LoweredFunction := do
  let members := function.blocks.flatMap fun block => searchOperandForAlloca block.instrs
  let frame ← getMemLayout config (.record members)
  let blocks ← lowerBlocks config members 0 function.blocks
  some ⟨function.params, blocks, members, stackPtrT frame.sizeInBytes⟩

def lowerFrames (functions : List StackFunction) : Option (List LoweredFunction) :=
  functions.mapM fun function => lowerAlloca config (setupStackFrames function)

end Lower

/-! ## Execution -/

structure Region where
  address : Nat
  size : Nat

def Region.finish (region : Region) : Nat := region.address + region.size

/-- No byte is in both. -/
def Region.Apart (a b : Region) : Prop :=
  ∀ byte, a.address ≤ byte → byte < a.finish → b.address ≤ byte → b.finish ≤ byte

/-- An execution of a function that is not over. -/
structure Activation where
  code : List (StackInstr StackSlot)
  terminator : StackTerminator
  blocks : List (StackBlock StackSlot)
  /-- It has passed control on, and waits for its lifted tail. -/
  suspended : Bool
  /-- It is the lifted tail of the execution below. -/
  continues : Bool
  baseOnEntry : Nat
  sizeOnEntry : Nat
  frameSize : Nat
  /-- `stack_size_on_entry` of `setup_stack_frames.c`; a lifted tail gets it back. -/
  saved : Nat
  executed : List StackSlot

/-- The end of the memory that is reserved for the frame. -/
def Activation.finish (activation : Activation) : Nat :=
  activation.sizeOnEntry + activation.frameSize

/-- `ptr_array_element_offset` from the base -/
def Activation.slotAddress (activation : Activation) (slot : StackSlot) : Nat :=
  activation.baseOnEntry + stackPtrT (activation.sizeOnEntry + stackPtrT slot.offset)

/-- The executions, innermost first, and what is on the stack besides their frames. -/
structure StackMachine where
  stackSize : Nat
  activations : List Activation
  pushed : List Region

inductive StackEvent
  /-- The next instruction; a stack size that is set is `value`. -/
  | instr (value : Nat)
  | jump (target : Nat)
  | fnRet
  | leave (suspends : Bool)
  /-- A function is dispatched. -/
  | enter (function : Nat) (continues : Bool)
  /-- Control has gone to a tail further out. -/
  | abandon

section Machine
variable (config : PointerModel)

/-- `size_of` -/
def bytesOf (type : DataType) : Option Nat := (getMemLayout config type).map TypeMemLayout.sizeInBytes

def StackMachine.push (m : StackMachine) (size : Nat) : StackMachine :=
  ⟨stackPtrT (m.stackSize + stackPtrT size), m.activations, ⟨m.stackSize, size⟩ :: m.pushed⟩

/-- The value that was pushed last is gone. -/
def StackMachine.pop (m : StackMachine) (size : Nat) : StackMachine :=
  ⟨stackPtrT (m.stackSize + (2 ^ 32 - stackPtrT size)), m.activations, m.pushed.tail⟩

/-- What lies above the new size is given up. -/
def StackMachine.setStackSize (m : StackMachine) (size : Nat) : StackMachine :=
  ⟨size, m.activations, m.pushed.filter fun region => region.finish ≤ size⟩

def StackMachine.popParams (m : StackMachine) (sizes : List Nat) : StackMachine :=
  sizes.foldl StackMachine.pop m

/-- `add_spill_instrs` -/
def StackMachine.addSpills (m : StackMachine) (sizes : List Nat) : StackMachine :=
  sizes.foldl StackMachine.push m

/-- The pops of `lambda_lift`, once the stack size is what it was behind the spills. -/
def StackMachine.recoverSpills (m : StackMachine) (sizes : List Nat) : StackMachine :=
  m.popParams sizes.reverse

/-- The size that is restored in the end; a tail finds it among what was spilled. -/
def StackMachine.savedOnEntry (m : StackMachine) (continues : Bool) : Option Nat :=
  if continues then m.activations.head?.map Activation.saved else some m.stackSize

variable (program : List LoweredFunction)

/-- The start of a function. `get_stack_base_addr` is the address of the byte at the
stack size. -/
def StackMachine.enter (m : StackMachine) (function : Nat) (continues : Bool) :
    Option StackMachine := do
  let fn ← program[function]?
  let block ← fn.blocks.head?
  let sizes ← fn.params.mapM (bytesOf config)
  let after := m.popParams sizes
  let saved ← after.savedOnEntry continues
  some ⟨after.stackSize, ⟨block.instrs, block.terminator, fn.blocks, false, continues, m.stackSize,
    m.stackSize, fn.frameSize, saved, []⟩ :: m.activations, after.pushed⟩

/-- Without the execution that returns: it and those that it continues. -/
def returned : List Activation → List Activation
  | [] => []
  | activation :: rest => if activation.continues then returned rest else rest

/-- An instruction of the innermost execution, with the code behind it -/
def StackMachine.executeInstr (m : StackMachine) (top : Activation) (rest : List Activation)
    (value : Nat) (code : List (StackInstr StackSlot)) : StackInstr StackSlot → Option StackMachine
  | .stackAlloc slot =>
      some ⟨stackPtrT (top.sizeOnEntry + top.frameSize),
        { top with code := code, executed := slot :: top.executed } :: rest, m.pushed⟩
  | .pushStack type => (bytesOf config type).map
      (⟨m.stackSize, { top with code := code } :: rest, m.pushed⟩ : StackMachine).push
  | .popStack type => (bytesOf config type).map
      (⟨m.stackSize, { top with code := code } :: rest, m.pushed⟩ : StackMachine).pop
  | .setStackSize => some ((⟨m.stackSize, { top with code := code } :: rest, m.pushed⟩ :
      StackMachine).setStackSize (stackPtrT value))
  | .call callee => (⟨m.stackSize, { top with code := code } :: rest, m.pushed⟩ :
      StackMachine).enter config program callee false

def StackMachine.execute (m : StackMachine) : StackEvent → Option StackMachine
  | .instr value =>
      match m.activations with
      | top :: rest =>
          match top.suspended, top.code with
          | false, instr :: code => m.executeInstr config program top rest value code instr
          | _, _ => none
      | [] => none
  | .jump target =>
      match m.activations with
      | top :: rest =>
          match top.suspended, top.code, top.terminator with
          | false, [], .jump targets => do
              let block ← top.blocks[target]?
              if target ∈ targets then
                some ⟨m.stackSize, { top with
                  code := block.instrs, terminator := block.terminator } :: rest, m.pushed⟩
              else none
          | _, _, _ => none
      | [] => none
  | .fnRet =>
      match m.activations with
      | top :: rest =>
          match top.suspended, top.code, top.terminator with
          | false, [], .fnRet restores =>
              let next : StackMachine := ⟨m.stackSize, returned (top :: rest), m.pushed⟩
              some (if restores then next.setStackSize top.saved else next)
          | _, _, _ => none
      | [] => none
  | .leave suspends =>
      match m.activations with
      | top :: rest =>
          match top.suspended, top.code, top.terminator with
          | false, [], .leave =>
              some ⟨m.stackSize,
                if suspends then { top with suspended := true } :: rest else rest, m.pushed⟩
          | _, _, _ => none
      | [] => none
  | .enter function continues =>
      if m.activations.head?.all Activation.suspended then m.enter config program function continues
      else none
  | .abandon =>
      match m.activations with
      | top :: rest => if top.suspended then some ⟨m.stackSize, rest, m.pushed⟩ else none
      | [] => none

/-- The stack is empty at first. -/
def stackSystem : Transition.System StackMachine StackEvent where
  initial m := m = ⟨0, [], []⟩
  step := StackMachine.execute config program

end Machine

end Shady
