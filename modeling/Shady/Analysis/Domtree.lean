import Shady.Analysis.Rpo

/-!
# Dominator trees

`shd_cfg_compute_domtree` gives each node but the entry a first parent, the
source of its first predecessor edge from an earlier node, and then replaces
parents by the least common ancestor of the predecessors until nothing changes.
A node with a tail edge keeps its first parent.
-/

set_option autoImplicit false

namespace Shady

/-- The fields that `shd_cfg_compute_domtree` sets, `none` being NULL. -/
structure Domtree where
  idom : CFNodeId → Option CFNodeId
  structuredIdom : CFNodeId → Option CFNodeId
  dominates : CFNodeId → List CFNodeId

/-- `shd_cfg_least_common_ancestor`, one step of its inner loops at a time: the node
with the larger index goes to its parent. -/
def leastCommonAncestor (rpo : RpoState) (idom : CFNodeId → Option CFNodeId) :
    Nat → CFNodeId → CFNodeId → Except CfgError CFNodeId
  | 0, _, _ => .error .outOfFuel
  | fuel + 1, i, j =>
      if (rpo.rpoIndex i).value = (rpo.rpoIndex j).value then .ok i
      else if (rpo.rpoIndex i).value < (rpo.rpoIndex j).value then
        match idom j with
        | none => .error .nullPointer
        | some next => leastCommonAncestor rpo idom fuel i next
      else
        match idom i with
        | none => .error .nullPointer
        | some next => leastCommonAncestor rpo idom fuel next j

/-- The loop of `shd_cfg_is_dominated`. -/
def isDominated.climb (tree : Domtree) (b : CFNodeId) : Nat → CFNodeId → Except CfgError Bool
  | 0, _ => .error .outOfFuel
  | fuel + 1, a =>
      if a = b then .ok true
      else
        match tree.idom a, tree.structuredIdom a with
        | some next, _ => isDominated.climb tree b fuel next
        | none, some next => isDominated.climb tree b fuel next
        | none, none => .ok false

def isDominated (cfg : CFG) (tree : Domtree) (a b : CFNodeId) : Except CfgError Bool :=
  isDominated.climb tree b cfg.size a

section Compute
variable (cfg : CFG) (rpo : RpoState)

/-- The source of the last tail edge into a node other than the entry. -/
def structuredIdom (n : CFNodeId) : Option CFNodeId :=
  if n ∈ cfg.contents ∧ n ≠ cfg.entry then
    ((cfg.predEdges n).filter (·.type = .structuredTailEdge)).getLast?.map (·.src)
  else none

/-- The first predecessor edge from a node with a smaller index. -/
def firstEarlierEdge (n : CFNodeId) : Option CFEdge :=
  (cfg.predEdges n).find? fun e => (rpo.rpoIndex e.src).value < (rpo.rpoIndex n).value

def firstIdom (n : CFNodeId) : Option CFNodeId :=
  if n ∈ cfg.contents ∧ n ≠ cfg.entry then (firstEarlierEdge cfg rpo n).map (·.src) else none

/-- The first loop writes the fields of one node in each turn and reads no other's;
this is its error. -/
def checkFirstIdom (n : CFNodeId) : Except CfgError Unit :=
  if n ≠ cfg.entry ∧ firstIdom cfg rpo n = none ∧ structuredIdom cfg n = none then
    .error .noIdomFound
  else .ok ()

/-- `new_idom` after one more predecessor edge that is no tail edge. -/
def mergeIdom (idom : CFNodeId → Option CFNodeId) (newIdom : Option CFNodeId) (e : CFEdge) :
    Except CfgError (Option CFNodeId) :=
  if e.type = .structuredTailEdge then .ok newIdom
  else
    match newIdom with
    | none => .ok (some e.src)
    | some other => do
        return some (← leastCommonAncestor rpo idom (2 * cfg.size) other e.src)

/-- One turn of the inner loop: the parents, and whether one has changed. -/
def updateIdom (current : (CFNodeId → Option CFNodeId) × Bool) (n : CFNodeId) :
    Except CfgError ((CFNodeId → Option CFNodeId) × Bool) :=
  if n = cfg.entry ∨ structuredIdom cfg n ≠ none then .ok current
  else do
    match ← (cfg.predEdges n).foldlM (mergeIdom cfg rpo current.1) none with
    | none => .error (.assertion "new_idom")
    | some newIdom =>
        if current.1 n = some newIdom then return current
        else return (fun v => if v = n then some newIdom else current.1 v, true)

/-- The loop over `todo`. -/
def iterateIdom : Nat → (CFNodeId → Option CFNodeId) →
    Except CfgError (CFNodeId → Option CFNodeId)
  | 0, _ => .error .outOfFuel
  | fuel + 1, idom => do
      let (idom, todo) ← cfg.contents.foldlM (updateIdom cfg rpo) (idom, false)
      if todo then iterateIdom fuel idom else return idom

/-- The lists of children, filled in the order of the numbering. -/
def dominatesLists (idom : CFNodeId → Option CFNodeId) : CFNodeId → List CFNodeId :=
  rpo.rpo.foldl
    (fun lists n => match idom n with
      | none => lists
      | some parent => appendAt lists parent n)
    fun _ => []

/-- `shd_cfg_compute_domtree`. -/
def computeDomtree : Except CfgError Domtree := do
  cfg.contents.forM (checkFirstIdom cfg rpo)
  let idom ← iterateIdom cfg rpo (cfg.size + 1) (firstIdom cfg rpo)
  return ⟨idom, structuredIdom cfg, dominatesLists rpo idom⟩

end Compute

structure AnalysedCFG where
  cfg : CFG
  rpo : RpoState
  tree : Domtree

/-- `shd_new_cfg`. -/
def newCfg (function : Function) (entry : AbsId) (config : CFGBuildConfig) :
    Except CfgError AnalysedCFG := do
  let built ← buildCfg function entry config
  let cfg ← (if config.flipped then flipCfg built else .ok built : Except CfgError CFG)
  let rpo ← computeRpo cfg
  let tree ← computeDomtree cfg rpo
  return ⟨cfg, rpo, tree⟩

end Shady
