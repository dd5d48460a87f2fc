import Shady.Library.UniqueTable

/-!
# The arena and its interned nodes

Model of `_shd_create_node_helper`, `shd_nodes`, `_shd_allocate_node_id` and
`shd_get_node_by_id`. A pointer to a node, or to an array of nodes, is its place among the
allocations. The grammar, the type rules and the folder are parameters: a rule creates
nodes of its own before it answers. Strings are interned elsewhere and stand for
themselves, and only nominal nodes have operands that a comparison ignores.
-/

set_option autoImplicit false

namespace Shady

open UniqueTable (Table)

/-! ## Nodes -/

/-- An operand with the class that the grammar gives it; `L` stands for a list of nodes. -/
inductive Operand (L : Type)
  | mem (operand : Option Nat)
  | node (operand : Option Nat)
  | nodes (operands : L)
  | string (text : String)
  /-- A number, a flag or one of an enumeration. -/
  | word (bits : Nat)
  deriving DecidableEq

structure NodeData (Tag L : Type) where
  tag : Tag
  payload : List (Operand L)
  deriving DecidableEq

/-- What a caller asks for: its lists are not those of the arena yet. -/
abbrev NodeRequest (Tag : Type) := NodeData Tag (List (Option Nat))

structure ArenaNode (Tag : Type) where
  data : NodeData Tag Nat
  type : Option Nat
  id : Nat

structure Grammar (Tag : Type) where
  /-- `shd_is_node_nominal` -/
  nominal : Tag → Bool
  /-- `MemAndValue_TAG`, with its operands `mem` and `value` -/
  memAndValue : Tag

structure Arena (Tag : Type) where
  /-- The nodes, and `node_set`. -/
  nodes : Table (ArenaNode Tag)
  /-- The arrays of nodes, and `nodes_set`. -/
  arrays : Table (List (Option Nat))
  ids : List (Option Nat)

structure ArenaConfig where
  checkTypes : Bool
  allowFold : Bool

/-- What a rule does with the arena. Its result is a node, or none. -/
inductive Program (Tag : Type)
  | done (result : Option Nat)
  | create (request : NodeRequest Tag) (next : Nat → Program Tag)
  | nodes (operands : List (Option Nat)) (next : Nat → Program Tag)

structure Rules (Tag : Type) where
  /-- `_shd_check_type_generated` -/
  checkType : Arena Tag → NodeData Tag Nat → Program Tag
  /-- `_shd_fold_node`; no result is the node as it is. -/
  foldNode : Arena Tag → NodeData Tag Nat → Program Tag

/-- The three ways in which a creation returns. -/
inductive Creation
  | found (node : Nat)
  | folded (node : Nat)
  | allocated (node : Nat)

def Creation.node : Creation → Nat
  | .found node => node
  | .folded node => node
  | .allocated node => node

section Creation
variable {Tag : Type} [DecidableEq Tag] (grammar : Grammar Tag)

namespace Arena

def new : Arena Tag := ⟨Table.empty, Table.empty, []⟩

/-- `_shd_allocate_node_id`: the object is appended, and the size is the id. -/
def allocateNodeId (arena : Arena Tag) (node : Option Nat) : Arena Tag × Nat :=
  let ids := arena.ids ++ [node]
  (⟨arena.nodes, arena.arrays, ids⟩, ids.length)

/-- `shd_get_node_by_id`; nothing is known of what lies behind the ids. -/
def getNodeById (arena : Arena Tag) (id : Nat) : Option Nat := arena.ids[id]?.join

/-- `shd_nodes` -/
def shdNodes (arena : Arena Tag) (operands : List (Option Nat)) : Arena Tag × Nat :=
  match arena.arrays.find some operands with
  | some array => (arena, array)
  | none => (⟨arena.nodes, arena.arrays.add operands, arena.ids⟩, arena.arrays.contents.length)

end Arena

/-- What `shd_hash_node` and `shd_compare_node` go by. Nominal nodes are compared by their
addresses, which no other node has. -/
def nodeKey (node : ArenaNode Tag) : Option (NodeData Tag Nat) :=
  if grammar.nominal node.data.tag then none else some node.data

/-- `_shd_fold_node_operand`, which reads the tag of the operand. -/
def foldNodeOperand (arena : Arena Tag) (isMem : Bool) : Option Nat → Option (Option Nat)
  | none => some none
  | some operand => do
      let node ← arena.nodes.contents[operand]?
      if node.data.tag = grammar.memAndValue then
        match node.data.payload with
        | [.mem mem, .node value] => some (if isMem then mem else value)
        | _ => none
      else some (some operand)

def resolveOperand (arena : Arena Tag) :
    Operand (List (Option Nat)) → Option (Operand (List (Option Nat)))
  | .mem operand => (foldNodeOperand grammar arena true operand).map .mem
  | .node operand => (foldNodeOperand grammar arena false operand).map .node
  | .nodes operands => (operands.mapM (foldNodeOperand grammar arena false)).map .nodes
  | .string text => some (.string text)
  | .word bits => some (.word bits)

/-- The request with the operands that it will have. -/
def resolve (arena : Arena Tag) (request : NodeRequest Tag) : Option (NodeRequest Tag) := do
  let payload ← request.payload.mapM (resolveOperand grammar arena)
  some ⟨request.tag, payload⟩

def internOperands : List (Operand (List (Option Nat))) → Arena Tag →
    Arena Tag × List (Operand Nat)
  | [], arena => (arena, [])
  | .nodes operands :: rest, arena =>
      let (arena, array) := arena.shdNodes operands
      let (arena, payload) := internOperands rest arena
      (arena, .nodes array :: payload)
  | .mem operand :: rest, arena =>
      let (arena, payload) := internOperands rest arena
      (arena, .mem operand :: payload)
  | .node operand :: rest, arena =>
      let (arena, payload) := internOperands rest arena
      (arena, .node operand :: payload)
  | .string text :: rest, arena =>
      let (arena, payload) := internOperands rest arena
      (arena, .string text :: payload)
  | .word bits :: rest, arena =>
      let (arena, payload) := internOperands rest arena
      (arena, .word bits :: payload)

/-- `pre_construction_validation` -/
def preConstructionValidation (arena : Arena Tag) (request : NodeRequest Tag) :
    Option (Arena Tag × NodeData Tag Nat) := do
  let resolved ← resolve grammar arena request
  let (arena, payload) := internOperands resolved.payload arena
  some (arena, ⟨request.tag, payload⟩)

def runProgram (create : Arena Tag → NodeRequest Tag → Option (Arena Tag × Creation)) :
    Program Tag → Arena Tag → Option (Arena Tag × Option Nat)
  | .done result, arena => some (arena, result)
  | .create request next, arena => do
      let (arena, creation) ← create arena request
      runProgram create (next creation.node) arena
  | .nodes operands next, arena =>
      let (arena, array) := arena.shdNodes operands
      runProgram create (next array) arena

/-- A rule that the configuration can turn off. -/
def runWhen (enabled : Bool)
    (create : Arena Tag → NodeRequest Tag → Option (Arena Tag × Creation))
    (program : Program Tag) (arena : Arena Tag) : Option (Arena Tag × Option Nat) :=
  if enabled then runProgram create program arena else some (arena, none)

/-- A node on the stack is no nominal node of the set. -/
def Arena.lookup (arena : Arena Tag) (data : NodeData Tag Nat) : Option Nat :=
  if grammar.nominal data.tag then none else arena.nodes.find (nodeKey grammar) data

/-- The end of `_shd_create_node_helper`: the node is allocated, numbered and inserted. -/
def Arena.allocate (arena : Arena Tag) (data : NodeData Tag Nat) (type : Option Nat) :
    Arena Tag × Nat :=
  let node := arena.nodes.contents.length
  let (arena, id) := arena.allocateNodeId (some node)
  (⟨arena.nodes.add ⟨data, type, id⟩, arena.arrays, arena.ids⟩, node)

variable (config : ArenaConfig) (rules : Rules Tag)

/-- `_shd_create_node_helper`, nested as deep as `fuel` -/
def createNodeHelper : Nat → Arena Tag → NodeRequest Tag → Option (Arena Tag × Creation)
  | 0, _, _ => none
  | fuel + 1, arena, request => do
      let (arena, data) ← preConstructionValidation grammar arena request
      let (arena, type) ←
        runWhen config.checkTypes (createNodeHelper fuel) (rules.checkType arena data) arena
      match arena.lookup grammar data with
      | some node => some (arena, .found node)
      | none => do
          let (arena, folded) ←
            runWhen config.allowFold (createNodeHelper fuel) (rules.foldNode arena data) arena
          match folded with
          | some node =>
              -- the result is inserted once more
              some (⟨arena.nodes.put (nodeKey grammar) node, arena.arrays, arena.ids⟩, .folded node)
          | none =>
              let (arena, node) := arena.allocate data type
              some (arena, .allocated node)

/-! ## Sequences of creations -/

inductive Request (Tag : Type)
  | node (request : NodeRequest Tag)
  | nodes (operands : List (Option Nat))

inductive Answer
  | node (creation : Creation)
  | nodes (array : Nat)

def serve (fuel : Nat) (arena : Arena Tag) : Request Tag → Option (Arena Tag × Answer)
  | .node request => do
      let (arena, creation) ← createNodeHelper grammar config rules fuel arena request
      some (arena, .node creation)
  | .nodes operands =>
      let (arena, array) := arena.shdNodes operands
      some (arena, .nodes array)

/-- A request with the arena that it met. -/
structure Served (Tag : Type) where
  before : Arena Tag
  request : Request Tag
  answer : Answer

def serveAll (fuel : Nat) : List (Request Tag) → Arena Tag →
    Option (Arena Tag × List (Served Tag))
  | [], arena => some (arena, [])
  | request :: requests, arena => do
      let (arena', answer) ← serve grammar config rules fuel arena request
      let (final, log) ← serveAll fuel requests arena'
      some (final, ⟨arena, request, answer⟩ :: log)

end Creation

end Shady
