import Shady.Analysis.Lexical
import Shady.Library.Stateful

/-!
# Removing critical edges

Model of `src/shady/passes/remove_critical_edges.c` with the rewriter of `src/shady/rewrite.c` that it
runs in. A copy has the number of what it is a copy of, and a new block the next free one. A jump node
takes the mem of the block that it stands in: two jumps are the same node if they stand in one block
and have the same target and arguments.
-/

set_option autoImplicit false

namespace Shady.CriticalEdges

open Stateful

structure JumpNode where
  block : AbsId
  jump : Jump
  deriving DecidableEq

/-- The processed abstractions and jumps, the abstractions whose body is set, and the next address. -/
structure Rewriting where
  seen : List AbsId
  jumps : List (JumpNode × AbsId)
  abstractions : List (AbsId × Abstraction)
  next : AbsId

inductive RewriteError
  | dangling
  | outOfFuel
  deriving DecidableEq

abbrev M := Prog Rewriting RewriteError

/-- `basic_block`, without parameters. -/
def basicBlock : M AbsId := do
  let st ← get
  set { st with next := st.next + 1 }
  return st.next

/-- `shd_set_abstraction_body` -/
def setAbstractionBody (a : AbsId) (abs : Abstraction) : M PUnit :=
  modify fun st => { st with abstractions := (a, abs) :: st.abstractions }

/-- `shd_register_processed`, for a jump. -/
def registerProcessed (node : JumpNode) (newBlock : AbsId) : M PUnit :=
  modify fun st => { st with jumps := (node, newBlock) :: st.jumps }

/-- What `process` does with a jump that was not processed before. -/
def processJump (rewriteNode : AbsId → M PUnit) (node : JumpNode) : M Jump := do
  let newBlock ← basicBlock
  rewriteNode node.jump.target
  setAbstractionBody newBlock ⟨false, [], some (.jump node.jump)⟩
  registerProcessed node newBlock
  return ⟨newBlock, []⟩

/-- `shd_rewrite_node`, for a jump. -/
def rewriteJump (rewriteNode : AbsId → M PUnit) (node : JumpNode) : M Jump := do
  let st ← get
  match st.jumps.lookup node with
  | some newBlock => return ⟨newBlock, []⟩
  | none => processJump rewriteNode node

/-- The operands of a terminator, in order. -/
def rewriteTerminator (rewriteNode : AbsId → M PUnit) (block : AbsId) : Terminator → M Terminator
  | .jump jump => do return .jump (← rewriteJump rewriteNode ⟨block, jump⟩)
  | .branch trueJump falseJump => do
      let trueJump ← rewriteJump rewriteNode ⟨block, trueJump⟩
      let falseJump ← rewriteJump rewriteNode ⟨block, falseJump⟩
      return .branch trueJump falseJump
  | .brSwitch caseJumps defaultJump => do
      let caseJumps ← caseJumps.mapM fun jump => rewriteJump rewriteNode ⟨block, jump⟩
      let defaultJump ← rewriteJump rewriteNode ⟨block, defaultJump⟩
      return .brSwitch caseJumps defaultJump
  | terminator => do
      terminator.structuralTargets.forM rewriteNode
      return terminator

/-- `shd_rewrite_node`, for an abstraction, which is registered before its body. -/
def rewriteAbstraction (f : Function) : Nat → AbsId → M PUnit
  | 0, _ => throw .outOfFuel
  | fuel + 1, a => do
      let st ← get
      if a ∈ st.seen then pure ()
      else match f.get a with
        | none => throw .dangling
        | some abs => do
            modify fun st => { st with seen := a :: st.seen }
            match abs.body with
            | none => setAbstractionBody a abs
            | some terminator => do
                let terminator ← rewriteTerminator (rewriteAbstraction f fuel) a terminator
                setAbstractionBody a { abs with body := some terminator }

/-- An address behind those of the function. -/
def unused (f : Function) : AbsId := (f.abstractions.map Prod.fst).foldr max 0 + 1

def Rewriting.initial (f : Function) : Rewriting := ⟨[], [], [], unused f⟩

/-- `shd_pass_remove_critical_edges`, on one function. -/
def removeCriticalEdges (f : Function) (fuel : Nat) : Except RewriteError Function := do
  let result ← (rewriteAbstraction f fuel f.self).run (.initial f)
  return ⟨f.self, result.2.abstractions⟩

/-! ## Edges -/

/-- What a terminator has for operands that are blocks, its jumps followed. -/
def operands (terminator : Terminator) : List AbsId :=
  terminator.jumps.map Jump.target ++ terminator.structuralTargets

/-- The blocks of a function are reached from it. -/
def Reaches (f : Function) : AbsId → Prop :=
  Relation.ReflTransGen (fun a b => ∃ t ∈ f.terminator a, b ∈ operands t) f.self

/-- All operands are blocks. -/
structure Closed (f : Function) : Prop where
  self : ∃ abs, f.get f.self = some abs
  operands : ∀ a, ∀ t ∈ f.terminator a, ∀ b ∈ operands t, f.IsBlock b

/-- The blocks that a function has, each of them once. -/
structure Blocks (f : Function) (blocks : List AbsId) : Prop where
  nodup : blocks.Nodup
  reached : ∀ a, a ∈ blocks ↔ Reaches f a

section Degrees
variable (f : Function) (scope : AbsId → List Frame)

/-- The number of successor edges. -/
def outDegree (a : AbsId) : Nat := (f.edgesIn (scope a) a).length

/-- The number of predecessor edges. -/
def inDegree (blocks : List AbsId) (b : AbsId) : Nat :=
  (blocks.flatMap fun a => f.edgesIn (scope a) a).countP fun e => e.dst = some b

/-- The edge leads from a block with several ways out to a block with several ways in. -/
def Critical (blocks : List AbsId) (a : AbsId) (e : CFEdge) : Prop :=
  2 ≤ outDegree f scope a ∧ ∃ b, e.dst = some b ∧ 2 ≤ inDegree f scope blocks b

def NoCriticalEdge (blocks : List AbsId) : Prop :=
  ∀ a ∈ blocks, ∀ e ∈ f.edgesIn (scope a) a, ¬ Critical f scope blocks a e

end Degrees

/-! ## Executions -/

section Executions
variable {V W : Type}

/-- The values of an execution and all that it changes. -/
structure Configuration (V W : Type) where
  block : AbsId
  values : ValueId → V
  world : W

/-- The parameters of a block take the values of the arguments. -/
def assign (params args : List ValueId) (values : ValueId → V) (v : ValueId) : V :=
  match (params.zip args).lookup v with
  | some arg => values arg
  | none => values v

/-- What the instructions of a block do, with the number of the edge that is taken in the end, if one
is; and what goes over an edge that is no jump. -/
structure Machine (V W : Type) where
  run : AbsId → (ValueId → V) → W → Option (Nat × (ValueId → V) × W)
  enter : CFEdgeType → AbsId → AbsId → (ValueId → V) → ValueId → V

/-- A block that the function does not have holds no instructions. -/
def Machine.extend (machine : Machine V W) (f : Function) : Machine V W where
  run a values world := if (f.get a).isSome then machine.run a values world else some (0, values, world)
  enter := machine.enter

def paramsOf (f : Function) (a : AbsId) : List ValueId :=
  match f.get a with
  | some abs => abs.params
  | none => []

/-- The values behind an edge. -/
def follow (machine : Machine V W) (f : Function) (a b : AbsId) (e : CFEdge)
    (values : ValueId → V) : ValueId → V :=
  match e.jump with
  | some jump => assign (paramsOf f b) jump.args values
  | none => machine.enter e.type a b values

def step (machine : Machine V W) (f : Function) (scope : AbsId → List Frame)
    (c : Configuration V W) : Option (Configuration V W) := do
  let (edge, values, world) ← machine.run c.block c.values c.world
  let e ← (f.edgesIn (scope c.block) c.block)[edge]?
  let b ← e.dst
  return ⟨b, follow machine f c.block b e values, world⟩

/-- One configuration leads to another. -/
def Leads (machine : Machine V W) (f : Function) (scope : AbsId → List Frame) :
    Configuration V W → Configuration V W → Prop :=
  Relation.ReflTransGen fun c d => step machine f scope c = some d

end Executions

end Shady.CriticalEdges
