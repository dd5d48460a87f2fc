import Shady.Analysis.Domtree
import Shady.Ir.Nodes

/-!
# Scheduling, free frontiers and the verification of scoping

The scheduler places a node in the block furthest down the dominator tree that one of its
operands stands in, and asserts that the others stand above. The free frontier of a block
collects the values that the nodes below it use from elsewhere. A function is accepted if
the frontier of its entry is empty and no assertion fails on the way.
-/

set_option autoImplicit false

namespace Shady

section Schedule
variable (analysed : AnalysedCFG)

/-- `shd_cfg_lookup` -/
def cfgLookup (abs : AbsId) : Except CfgError CFNodeId :=
  if some abs ∈ analysed.cfg.contents then .ok (some abs) else .error (.assertion "false")

/-- `schedule_after`, the pointers being NULL where there is `none`. -/
def scheduleAfter (scheduled req : Option CFNodeId) : Except CfgError (Option CFNodeId) :=
  match req, scheduled with
  | none, _ => .ok scheduled
  | some req, none => .ok (some req)
  | some req, some old =>
      if (analysed.rpo.rpoIndex req).value > (analysed.rpo.rpoIndex old).value then do
        if ← isDominated analysed.cfg analysed.tree req old then return some req
        else .error (.assertion "shd_cfg_is_dominated(req, old)")
      else do
        if ← isDominated analysed.cfg analysed.tree old req then return some old
        else .error (.assertion "shd_cfg_is_dominated(old, req)")

mutual
/-- `shd_schedule_instruction` on values and instructions. -/
def scheduleNode : IrNode → Except CfgError (Option CFNodeId)
  | .param _ abs => do
      let where_ ← cfgLookup analysed abs
      scheduleAfter analysed none (some where_)
  | .absMem _ abs => do
      let where_ ← cfgLookup analysed abs
      scheduleAfter analysed none (some where_)
  | .pure _ _ operands => scheduleOperands none operands
  | .instr _ _ mem operands => do
      let ofMem ← scheduleNode mem
      let result ← scheduleAfter analysed none ofMem
      scheduleOperands result operands

/-- The operands of the classes `mem` and `value`, one after the other. -/
def scheduleOperands (result : Option CFNodeId) : List IrNode → Except CfgError (Option CFNodeId)
  | [] => .ok result
  | operand :: operands => do
      let req ← scheduleNode operand
      let result ← scheduleAfter analysed result req
      scheduleOperands result operands
end

/-- `shd_schedule_instruction` -/
def scheduleInstruction : BodyNode → Except CfgError (Option CFNodeId)
  | .value n => scheduleNode analysed n
  | .terminator t => scheduleOperands analysed none t.dependencies
  | .block b => do
      let where_ ← cfgLookup analysed b
      scheduleAfter analysed none (some where_)

end Schedule

/-- The sets of the visitor of `shd_free_frontier`. -/
structure FrontierState where
  seen : List BodyNode
  frontier : List IrNode

section Frontier
variable (f : FunctionNode) (analysed : AnalysedCFG)

mutual
/-- `visit_free_frontier` -/
def visitFreeFrontier (start : CFNodeId) :
    Nat → BodyNode → FrontierState → Except CfgError FrontierState
  | 0, _, _ => .error .outOfFuel
  | fuel + 1, node, state =>
      if node ∈ state.seen then .ok state
      else do
        let state := { state with seen := node :: state.seen }
        match ← scheduleInstruction analysed node with
        | none => return state
        | some where_ =>
            if ← isDominated analysed.cfg analysed.tree where_ start then
              (f.operands node).foldlM (fun state operand => visitFreeFrontier start fuel operand state) state
            else
              match node with
              | .block b => do
                  let otherFrontier ← freeFrontier fuel b
                  return { state with frontier := otherFrontier.foldl (fun set n => set.insert n) state.frontier }
              | .value n =>
                  if n.isValue then return { state with frontier := state.frontier.insert n }
                  else return state
              | .terminator _ => return state

/-- `shd_free_frontier` -/
def freeFrontier : Nat → AbsId → Except CfgError (List IrNode)
  | 0, _ => .error .outOfFuel
  | fuel + 1, abs => do
      let start ← cfgLookup analysed abs
      match (f.get abs).bind AbstractionNode.body with
      | none => return []
      | some body => do
          let state ← visitFreeFrontier start fuel (.terminator body) ⟨[], []⟩
          return state.frontier
end

end Frontier

mutual
/-- The values and instructions that a node is made of, itself included. -/
def IrNode.parts : IrNode → List IrNode
  | .param id abs => [.param id abs]
  | .absMem id abs => [.absMem id abs]
  | .pure id tag operands => .pure id tag operands :: partsAll operands
  | .instr id tag mem operands => .instr id tag mem operands :: (parts mem ++ partsAll operands)

def IrNode.partsAll : List IrNode → List IrNode
  | [] => []
  | n :: ns => parts n ++ partsAll ns
end

/-- The ways in which the verification ends the compiler. -/
inductive ScopingError
  | cfg (error : CfgError)
  /-- The values that are listed as leaking. -/
  | leaking (values : List IrNode)

end Shady
