import Mathlib.Data.List.Count
import Shady.Library.Fallible
import Shady.Passes.DemoteAlloca

/-!
# Where addresses go in a run

The data of a run tell which execution of which allocation an address comes from. Memory, the
arithmetic on addresses and the instructions outside the pass are left open, as long as they make
up no addresses.
-/

set_option autoImplicit false

namespace Shady.DemoteAlloca
open Fallible

/-- One execution of an allocation. -/
structure Instance where
  alloc : Alloc
  serial : Nat
  deriving DecidableEq

mutual
inductive Data
  | scalar (value : Int)
  /-- An address, with the execution of an allocation that it comes from, if any. -/
  | pointer (origin : Option Instance) (path : List Int)
  | aggregate (members : Members)
  deriving DecidableEq
inductive Members
  | nil
  | cons (head : Data) (tail : Members)
  deriving DecidableEq
end

namespace Members

def toList : Members → List Data
  | .nil => []
  | .cons head tail => head :: tail.toList

def ofList : List Data → Members
  | [] => .nil
  | head :: tail => .cons head (ofList tail)

end Members

mutual
/-- The executions of allocations whose addresses are in the data. -/
def Data.origins : Data → List Instance
  | .scalar _ => []
  | .pointer origin _ => origin.toList
  | .aggregate members => members.origins

def Members.origins : Members → List Instance
  | .nil => []
  | .cons head tail => head.origins ++ tail.origins
end

/-! ## The operators -/

namespace Data

def member (index : Int) : Data → Data
  | .aggregate members => (members.toList[index.toNat]?).getD (.scalar 0)
  | _ => .scalar 0

/-- The position that an index selects. -/
def index : Data → Int
  | .scalar value => value
  | _ => 0

def extract : Data → List Data → Data
  | source, [] => source
  | source, selector :: indices => (source.member selector.index).extract indices

def insert (source inserted : Data) : List Data → Data
  | [] => inserted
  | selector :: indices =>
      match source with
      | .aggregate members => .aggregate (.ofList (members.toList.set selector.index.toNat
          ((source.member selector.index).insert inserted indices)))
      | source => source

def selectOne (condition ifTrue ifFalse : Data) : Data := if condition.index = 0 then ifFalse else ifTrue

/-- A pack of conditions selects from two packs. -/
def select : Data → Data → Data → Data
  | .aggregate conditions, .aggregate ifTrue, .aggregate ifFalse =>
      .aggregate (.ofList ((conditions.toList.zip (ifTrue.toList.zip ifFalse.toList)).map fun lane =>
        selectOne lane.1 lane.2.1 lane.2.2))
  | condition, ifTrue, ifFalse => selectOne condition ifTrue ifFalse

def elements : Data → List Data
  | .aggregate members => members.toList
  | _ => []

def shuffle (lhs rhs : Data) (indices : List Data) : Data :=
  .aggregate (.ofList (indices.map fun index => ((lhs.elements ++ rhs.elements)[index.index.toNat]?).getD (.scalar 0)))

end Data

/-- What a run depends on besides the function. -/
structure Machine where
  Memory : Type
  /-- The address of this execution is stored somewhere. -/
  Holds : Memory → Instance → Prop
  read : Memory → Data → Data
  write : Memory → Data → Data → Memory
  compute : Op → List IrType → List Data → Data
  element : Data → Data → Data
  offset : Data → Data → Data
  other : Nat → List Data → Memory → Data × Memory
  read_origins : ∀ memory ptr, ∀ i ∈ (read memory ptr).origins, Holds memory i
  write_holds : ∀ memory ptr value i, Holds (write memory ptr value) i → Holds memory i ∨ i ∈ value.origins
  compute_origins : ∀ op types operands, (compute op types operands).origins = []
  element_origins : ∀ ptr index, ∀ i ∈ (element ptr index).origins, i ∈ ptr.origins
  offset_origins : ∀ ptr index, ∀ i ∈ (offset ptr index).origins, i ∈ ptr.origins
  other_origins : ∀ id operands memory i,
    i ∈ (other id operands memory).1.origins ∨ Holds (other id operands memory).2 i →
      Holds memory i ∨ ∃ operand ∈ operands, i ∈ operand.origins

/-! ## Runs -/

section Runs
variable (machine : Machine)

def evalOp (op : Op) (types : List IrType) (operands : List Data) : Data :=
  match op, operands with
  | .convert, [source] => source
  | .reinterpret, [source] => source
  | .subgroupAssumeUniform, [source] => source
  | .select, [condition, ifTrue, ifFalse] => .select condition ifTrue ifFalse
  | .extract, source :: indices => source.extract indices
  | .extractDynamic, source :: indices => source.extract indices
  | .insert, source :: inserted :: indices => source.insert inserted indices
  | .shuffle, lhs :: rhs :: indices => .shuffle lhs rhs indices
  | op, operands => machine.compute op types operands

structure State where
  /-- Parameters, constants and the results of instructions. -/
  values : Nat → Data
  addresses : Alloc → Data
  memory : machine.Memory
  serial : Nat
  block : Block
  /-- The instructions of the block that are still to be executed. -/
  rest : List Instr

variable {machine}

mutual
def State.eval (s : State machine) : IrValue → Data
  | .source id _ => s.values id
  | .allocation alloc => s.addresses alloc
  | .primOp op types operands _ => evalOp machine op types (s.evalAll operands)
  | .composite contents _ => .aggregate (.ofList (s.evalAll contents))
  | .ptrCompositeElement ptr index _ => machine.element (s.eval ptr) (s.eval index)
  | .ptrArrayElementOffset ptr offset _ => machine.offset (s.eval ptr) (s.eval offset)

def State.evalAll (s : State machine) : IrValues → List Data
  | .nil => []
  | .cons head tail => s.eval head :: s.evalAll tail
end

/-- The parameters of a block take the values that are passed. -/
def bindParams (values : Nat → Data) : List Nat → List Data → Nat → Data
  | param :: params, arg :: args => Function.update (bindParams values params args) param arg
  | _, _ => values

/-- A terminator goes on to any of its transfers. -/
inductive Step (f : FunctionBody) : State machine → State machine → Prop
  | alloc {s : State machine} {alloc : Alloc} {rest : List Instr} (next : s.rest = .alloc alloc :: rest) :
      Step f s { s with addresses := Function.update s.addresses alloc (.pointer (some ⟨alloc, s.serial⟩) []),
                        serial := s.serial + 1, rest := rest }
  | load {s : State machine} {id : Nat} {ptr : IrValue} {rest : List Instr} (next : s.rest = .load id ptr :: rest) :
      Step f s { s with values := Function.update s.values id (machine.read s.memory (s.eval ptr)), rest := rest }
  | store {s : State machine} {ptr value : IrValue} {rest : List Instr} (next : s.rest = .store ptr value :: rest) :
      Step f s { s with memory := machine.write s.memory (s.eval ptr) (s.eval value), rest := rest }
  | other {s : State machine} {id : Nat} {operands : List IrValue} {rest : List Instr}
      (next : s.rest = .other id operands :: rest) :
      Step f s { s with values := Function.update s.values id (machine.other id (operands.map s.eval) s.memory).1,
                        memory := (machine.other id (operands.map s.eval) s.memory).2, rest := rest }
  | transfer {s : State machine} {transfer : Transfer} {block : Block} (next : s.rest = [])
      (taken : transfer ∈ s.block.transfers) (target : f.blocks[transfer.target]? = some block) :
      Step f s { s with values := bindParams s.values block.params (transfer.args.map s.eval),
                        block := block, rest := block.instrs }

/-- Nothing that the function is given holds an address that it allocates. -/
structure Starts (f : FunctionBody) (s : State machine) : Prop where
  entry : f.blocks.head? = some s.block
  first : s.rest = s.block.instrs
  values : ∀ id, (s.values id).origins = []
  addresses : ∀ alloc, (s.addresses alloc).origins = []
  memory : ∀ i, ¬ machine.Holds s.memory i

inductive Reaches (f : FunctionBody) : State machine → Prop
  | start {s : State machine} (starts : Starts f s) : Reaches f s
  | step {s s' : State machine} (before : Reaches f s) (step : Step f s s') : Reaches f s'

/-- The operands through which the next step reads memory or lets its data escape. -/
def State.exposed (s : State machine) : List IrValue :=
  match s.rest with
  | [] => s.block.terminatorOperands
  | .alloc _ :: _ => []
  | .load _ ptr :: _ => [ptr]
  | .store _ value :: _ => [value]
  | .other _ operands :: _ => operands

/-- The next step reads through, or lets escape, an address of the allocation by way of `v`. -/
def State.Exposes (s : State machine) (alloc : Alloc) (v : IrValue) : Prop :=
  v ∈ s.exposed ∧ ∃ serial, ⟨alloc, serial⟩ ∈ (s.eval v).origins

end Runs

/-- No execution reads memory through the address of the allocation, which never escapes. -/
def NeverReadNorEscapes (f : FunctionBody) (alloc : Alloc) : Prop :=
  ∀ (machine : Machine) (s : State machine), Reaches f s → ∀ v, ¬ s.Exposes alloc v

end Shady.DemoteAlloca
