import Shady.Library.Stateful
import Mathlib.Logic.Relation

/-!
# Uses

Model of `src/shady/analysis/uses.c`, with the visitor that `src/shady/generator_visit.c` generates
from the grammar, for nodes with any fields. Nodes are interned, so that the dictionaries tell them
apart; a `Use` is a cell of the arena of the map, and its address the number of the cells before it.
-/

set_option autoImplicit false

namespace Shady.Uses

open Stateful

/-- A set of classes of operands. -/
abbrev NodeClass := BitVec 32

inductive Ops (N : Type)
  | op (op : Option N)
  | ops (ops : List (Option N))

/-- A field of a payload. What is no operand has no class. -/
structure Field (N : Type) where
  name : String
  opClass : Option NodeClass
  ignore : Bool
  ops : Ops N

/-- What a field holds; the index of a single operand is zero. -/
def Ops.at {N : Type} : Ops N → Nat → Option N
  | .op held, index => if index = 0 then held else none
  | .ops held, index => held[index]?.join

/-- The nodes of a module. The fields of a node have different names. -/
structure NodeGraph (N : Type) where
  payload : N → List (Field N)
  nodes : List N
  names : ∀ n, ((payload n).map Field.name).Nodup
  closed : ∀ n ∈ nodes, ∀ field ∈ payload n, ∀ index op, field.ops.at index = some op → op ∈ nodes

structure Use (N : Type) where
  user : N
  operandClass : NodeClass
  operandName : String
  operandIndex : Nat
  deriving DecidableEq

structure UseCell (N : Type) where
  use : Use N
  nextUse : Option Nat

/-- The map, the arena of its uses, and the nodes that were seen. -/
structure UsesMap (N : Type) where
  cells : List (UseCell N)
  map : N → Option Nat
  seen : List N

inductive UsesError
  | dangling
  | outOfFuel

section Visitor

variable {N ε σ : Type}

/-- `shd_visit_op` -/
def shdVisitOp (visitOpFn : NodeClass → String → N → Nat → Prog σ ε PUnit) (opClass : NodeClass)
    (opName : String) (op : Option N) (i : Nat) : Prog σ ε PUnit :=
  match op with
  | none => pure ()
  | some op => visitOpFn opClass opName op i

/-- `shd_visit_ops` -/
def shdVisitOps (visitOpFn : NodeClass → String → N → Nat → Prog σ ε PUnit) (opClass : NodeClass)
    (opName : String) (ops : List (Option N)) : Prog σ ε PUnit :=
  ops.zipIdx.forM fun op => shdVisitOp visitOpFn opClass opName op.1 op.2

/-- `shd_visit_node_operands` -/
def shdVisitNodeOperands (visitOpFn : NodeClass → String → N → Nat → Prog σ ε PUnit)
    (exclude : NodeClass) (payload : List (Field N)) : Prog σ ε PUnit :=
  payload.forM fun field =>
    match field.opClass with
    | none => pure ()
    | some opClass =>
        if !field.ignore && exclude &&& opClass == 0 then
          match field.ops with
          | .op op => shdVisitOp visitOpFn opClass field.name op 0
          | .ops ops => shdVisitOps visitOpFn opClass field.name ops
        else pure ()

end Visitor

variable {N : Type} [DecidableEq N]

abbrev M (N : Type) := Prog (UsesMap N) UsesError

/-- `shd_get_first_use` -/
def UsesMap.firstUse (map : UsesMap N) (n : N) : Option Nat := map.map n

/-- The loop of `get_last_use`. -/
def lastFrom (cells : List (UseCell N)) : Nat → Nat → Except UsesError Nat
  | 0, _ => .error .outOfFuel
  | fuel + 1, use =>
      match cells[use]? with
      | none => .error .dangling
      | some cell =>
          match cell.nextUse with
          | none => .ok use
          | some next => lastFrom cells fuel next

/-- `get_last_use` -/
def UsesMap.lastUse (map : UsesMap N) (n : N) : Except UsesError (Option Nat) :=
  match map.firstUse n with
  | none => .ok none
  | some first => (lastFrom map.cells map.cells.length first).map some

/-- The new use is the next one of the last one, or the first one. -/
def UsesMap.link (map : UsesMap N) (lastUse : Option Nat) (use : Use N) (op : N) : UsesMap N :=
  match lastUse with
  | some last => { map with
      cells := map.cells.modify last (fun cell => { cell with nextUse := some map.cells.length })
        ++ [⟨use, none⟩] }
  | none => { map with
      cells := map.cells ++ [⟨use, none⟩]
      map := fun n => if n = op then some map.cells.length else map.map n }

def appendUse (use : Use N) (op : N) : M N PUnit := do
  let map ← get
  match map.lastUse op with
  | .error e => throw e
  | .ok last => set (map.link last use op)

/-- `uses_visit_node`, and `uses_visit_op` for each operand -/
def usesVisitNode (g : NodeGraph N) (exclude : NodeClass) : Nat → N → M N PUnit
  | 0, _ => throw .outOfFuel
  | fuel + 1, n => do
      let map ← get
      if n ∈ map.seen then pure ()
      else do
        modify fun map => { map with seen := n :: map.seen }
        shdVisitNodeOperands
          (fun opClass opName op i => do
            appendUse ⟨n, opClass, opName, i⟩ op
            usesVisitNode g exclude fuel op)
          exclude (g.payload n)

/-- `create_uses_map_` -/
def createUsesMap (g : NodeGraph N) (exclude : NodeClass) (fuel : Nat) (root : Option N)
    (declarations : List N) : M N PUnit := do
  root.toList.forM (usesVisitNode g exclude fuel)
  declarations.forM (usesVisitNode g exclude fuel)

def UsesMap.empty : UsesMap N := ⟨[], fun _ => none, []⟩

/-- `shd_new_uses_map_fn` -/
def shdNewUsesMapFn (g : NodeGraph N) (root : N) (exclude : NodeClass) (fuel : Nat) : M N PUnit :=
  createUsesMap g exclude fuel (some root) []

/-- `shd_new_uses_map_module` -/
def shdNewUsesMapModule (g : NodeGraph N) (declarations : List N) (exclude : NodeClass)
    (fuel : Nat) : M N PUnit :=
  createUsesMap g exclude fuel none declarations

/-! ## What the map is for -/

/-- A use is an operand that is not excluded. -/
def Occurs (g : NodeGraph N) (exclude : NodeClass) (use : Use N) (op : N) : Prop :=
  ∃ field ∈ g.payload use.user, field.ignore = false ∧ field.opClass = some use.operandClass ∧
    exclude &&& use.operandClass = 0 ∧ field.name = use.operandName ∧
    field.ops.at use.operandIndex = some op

/-- One node is reached from another through operands that are not excluded. -/
def Reaches (g : NodeGraph N) (exclude : NodeClass) : N → N → Prop :=
  Relation.ReflTransGen fun n op => ∃ use : Use N, use.user = n ∧ Occurs g exclude use op

/-- The uses that are read from an address on. -/
inductive Lists (cells : List (UseCell N)) : Option Nat → List (Use N) → Prop
  | none : Lists cells none []
  | some {address : Nat} {cell : UseCell N} {uses : List (Use N)} (found : cells[address]? = some cell)
      (rest : Lists cells cell.nextUse uses) : Lists cells (some address) (cell.use :: uses)

end Shady.Uses
