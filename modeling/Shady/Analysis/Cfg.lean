import Shady.Ir.ControlFlow

/-!
# Control flow graphs

`shd_new_cfg` explores the blocks of a function depth first: adding an edge
first processes its destination, with all that follows from there, and appends
the edge to the lists of both ends afterwards. The order of the edge lists is
the order in which the analyses read them.
-/

set_option autoImplicit false

namespace Shady

inductive CFEdgeType
  | jumpEdge
  | structuredEnterBodyEdge
  | structuredLoopContinue
  | structuredLeaveBodyEdge
  | structuredTailEdge
  deriving DecidableEq, Repr

/-- A node of the graph: the abstraction that its `node` field points to, `none`
(a NULL pointer) for the virtual entry of a flipped graph. -/
abbrev CFNodeId := Option AbsId

instance : LawfulBEq CFNodeId := inferInstance

structure CFEdge where
  type : CFEdgeType
  src : CFNodeId
  dst : CFNodeId
  jump : Option Jump
  terminator : Option Terminator
  deriving DecidableEq, Repr

/-- What `in_loop` reads of a loop tree: the `cf_nodes` of the nodes above the
leaf of a block, the innermost first. -/
abbrev LoopNest := AbsId → Option (List (List CFNodeId))

structure CFGBuildConfig where
  includeStructuredExits : Bool
  includeStructuredTails : Bool
  lt : Option LoopNest
  flipped : Bool

def defaultForwardCfgBuild : CFGBuildConfig := ⟨true, true, none, false⟩

def structuredScopeCfgBuild : CFGBuildConfig := ⟨false, true, none, false⟩

def flippedCfgBuild : CFGBuildConfig := ⟨false, false, none, true⟩

/-- The ways in which building or analysing a graph ends the compiler. -/
inductive CfgError
  | assertion (condition : String)
  | usedMoreThanOnce (node : CFNodeId) (structuredBodyUses : Nat)
  | alsoJumpedInto (node : CFNodeId) (numJumps : Nat)
  | notMergeTarget (node : CFNodeId) (numExits : Nat)
  | noIdomFound
  /-- A read through a NULL pointer. -/
  | nullPointer
  /-- A write outside of an array. -/
  | outOfBounds
  /-- A pointer to something that is not an abstraction of the function. -/
  | dangling
  /-- The bound on the recursion or on a loop of the model is used up. -/
  | outOfFuel
  deriving DecidableEq, Repr

structure CFG where
  entry : CFNodeId
  contents : List CFNodeId
  succEdges : CFNodeId → List CFEdge
  predEdges : CFNodeId → List CFEdge

def CFG.size (cfg : CFG) : Nat := cfg.contents.length

/-! ## Building -/

/-- The fields of the build context that a structured construct overrides. -/
structure Constructs where
  selectionTail : Option AbsId
  loopHead : Option AbsId
  loopTail : Option AbsId

/-- The fields of the build context that stay, for one graph. -/
structure CfgBuildContext where
  function : Function
  entry : AbsId
  config : CFGBuildConfig

/-- The dictionaries and lists that the context points to. -/
structure BuildState where
  nodes : List AbsId
  contents : List AbsId
  succEdges : AbsId → List CFEdge
  predEdges : AbsId → List CFEdge
  joinPointValues : List (ValueId × AbsId)

def BuildState.empty : BuildState :=
  ⟨[], [], fun _ => [], fun _ => [], []⟩

/-- `lists` with `value` appended to the list of `key`. -/
def appendAt {K E : Type} [DecidableEq K] (lists : K → List E) (key : K) (value : E) :
    K → List E :=
  fun k => if k = key then lists k ++ [value] else lists k

/-- A call of `add_edge` that `process_cf_node` makes, with its context. -/
structure EdgeRequest where
  constructs : Constructs
  dst : AbsId
  type : CFEdgeType
  terminator : Terminator

def Terminator.asJump : Terminator → Option Jump
  | .jump j => some j
  | _ => none

/-- The loop over the parents in `in_loop`. -/
def inLoop.climb (fn loopentry : AbsId) : List (List CFNodeId) → Bool
  | [] => false
  | cfNodes :: above =>
      if cfNodes.length = 0 ∧ loopentry = fn then true
      else if cfNodes = [some loopentry] then true
      else inLoop.climb fn loopentry above

def inLoop (lt : LoopNest) (fn loopentry block : AbsId) : Except CfgError Bool :=
  match lt block with
  | none => .error (.assertion "lt_node")
  | some [] => .error (.assertion "parent")
  | some parents => .ok (inLoop.climb fn loopentry parents)

section Process
variable (ctx : CfgBuildContext)

/-- The edge that `add_jump_edge` asks for, if the target is a basic block. -/
def jumpRequest (constructs : Constructs) (jump : Jump) :
    Except CfgError (List EdgeRequest) :=
  match ctx.function.get jump.target with
  | none => .error .dangling
  | some target =>
      if target.isFunction then .ok []
      else .ok [⟨constructs, jump.target, .jumpEdge, .jump jump⟩]

/-- The tail edge, when the configuration asks for it. -/
def tailRequest (constructs : Constructs) (terminator : Terminator) (tail : AbsId) :
    List EdgeRequest :=
  if ctx.config.includeStructuredTails then
    [⟨constructs, tail, .structuredTailEdge, terminator⟩]
  else []

/-- A merge leads to `target`, which an enclosing construct must have set. -/
def mergeRequest (constructs : Constructs) (terminator : Terminator) (type : CFEdgeType)
    (target : Option AbsId) (condition : String) : Except CfgError (List EdgeRequest) :=
  match target with
  | none => .error (.assertion condition)
  | some target =>
      if ctx.config.includeStructuredExits then
        .ok [⟨constructs, target, type, terminator⟩]
      else .ok []

/-- The edges that `process_cf_node` adds for a terminator, in order, and the join
points known afterwards. -/
def edgeRequests (constructs : Constructs) (joinPointValues : List (ValueId × AbsId))
    (terminator : Terminator) : Except CfgError (List EdgeRequest × List (ValueId × AbsId)) :=
  match terminator with
  | .jump jump => do
      let requests ← jumpRequest ctx constructs jump
      return (requests, joinPointValues)
  | .branch trueJump falseJump => do
      let onTrue ← jumpRequest ctx constructs trueJump
      let onFalse ← jumpRequest ctx constructs falseJump
      return (onTrue ++ onFalse, joinPointValues)
  | .brSwitch caseJumps defaultJump => do
      let onCases ← caseJumps.mapM (jumpRequest ctx constructs)
      let onDefault ← jumpRequest ctx constructs defaultJump
      return (onCases.flatten ++ onDefault, joinPointValues)
  | .ifInstr ifTrue ifFalse tail =>
      let inner := { constructs with selectionTail := some tail }
      let onTrue := [⟨inner, ifTrue, .structuredEnterBodyEdge, terminator⟩]
      let onFalse := match ifFalse with
        | some ifFalse => [⟨inner, ifFalse, .structuredEnterBodyEdge, terminator⟩]
        | none => [⟨constructs, tail, .structuredLeaveBodyEdge, terminator⟩]
      .ok (tailRequest ctx constructs terminator tail ++ onTrue ++ onFalse, joinPointValues)
  | .matchInstr cases defaultCase tail =>
      let inner := { constructs with selectionTail := some tail }
      let bodies := (cases ++ [defaultCase]).map fun body =>
        ⟨inner, body, .structuredEnterBodyEdge, terminator⟩
      .ok (tailRequest ctx constructs terminator tail ++ bodies, joinPointValues)
  | .loopInstr body tail =>
      let inner := { constructs with loopHead := some body, loopTail := some tail }
      .ok (tailRequest ctx constructs terminator tail ++
        [⟨inner, body, .structuredEnterBodyEdge, terminator⟩], joinPointValues)
  | .control inside tail =>
      match ctx.function.get inside with
      | none => .error .dangling
      | some insideAbs =>
          match insideAbs.params with
          | [] => .error (.assertion "nodes.count > 0")
          | param :: _ =>
              -- unlike in the other constructs, the tail edge comes after the body
              .ok (⟨constructs, inside, .structuredEnterBodyEdge, terminator⟩ ::
                tailRequest ctx constructs terminator tail, (param, tail) :: joinPointValues)
  | .join joinPoint =>
      if ctx.config.includeStructuredExits then
        match joinPointValues.lookup joinPoint with
        | some dst =>
            .ok ([⟨constructs, dst, .structuredLeaveBodyEdge, terminator⟩],
              joinPointValues)
        | none => .ok ([], joinPointValues)
      else .ok ([], joinPointValues)
  | .mergeSelection => do
      let requests ← mergeRequest ctx constructs terminator .structuredLeaveBodyEdge
        constructs.selectionTail "ctx->selection_construct_tail"
      return (requests, joinPointValues)
  | .mergeContinue => do
      let requests ← mergeRequest ctx constructs terminator .structuredLoopContinue
        constructs.loopHead "ctx->loop_construct_head"
      return (requests, joinPointValues)
  | .mergeBreak => do
      let requests ← mergeRequest ctx constructs terminator .structuredLeaveBodyEdge
        constructs.loopTail "ctx->loop_construct_tail"
      return (requests, joinPointValues)
  | .tailCall | .fnRet | .unreachable => .ok ([], joinPointValues)

/-- `add_edge` drops the edges that leave the loop it is asked to stay in, and those
back to its entry. -/
def edgeKept (dst : AbsId) : Except CfgError Bool :=
  match ctx.config.lt with
  | none => .ok true
  | some lt => do
      let inside ← inLoop lt ctx.function.self ctx.entry dst
      return inside && dst != ctx.entry

/-- Both ends of a new edge record it. -/
def BuildState.record (state : BuildState) (src : AbsId) (request : EdgeRequest) :
    BuildState :=
  let edge : CFEdge := ⟨request.type, some src, some request.dst, request.terminator.asJump,
    some request.terminator⟩
  { state with
    succEdges := appendAt state.succEdges src edge
    predEdges := appendAt state.predEdges request.dst edge }

/-- `add_edge`, where `enqueue` is `get_or_enqueue`; the source is being processed, so
that the dictionary has it. -/
def addEdge (enqueue : Constructs → AbsId → BuildState → Except CfgError BuildState)
    (src : AbsId) (state : BuildState) (request : EdgeRequest) :
    Except CfgError BuildState :=
  match ctx.function.get request.dst with
  | none => .error .dangling
  | some dstAbs =>
      if dstAbs.isFunction then .error (.assertion "!is_function(dst)")
      else do
        let kept ← edgeKept ctx request.dst
        if kept then
          let state ← enqueue request.constructs request.dst state
          return state.record src request
        else return state

/-- `process_cf_node`. -/
def processCfNode (enqueue : Constructs → AbsId → BuildState → Except CfgError BuildState)
    (constructs : Constructs) (abs : AbsId) (body : Option Terminator)
    (state : BuildState) : Except CfgError BuildState :=
  match body with
  | none => .ok state
  | some terminator => do
      let (requests, joinPointValues) ←
        edgeRequests ctx constructs state.joinPointValues terminator
      requests.foldlM (addEdge ctx enqueue abs) { state with joinPointValues }

/-- `get_or_enqueue`. The node enters the dictionary before its terminator is
processed, and the list of contents after that. -/
def getOrEnqueue : Nat → Constructs → AbsId → BuildState → Except CfgError BuildState
  | 0, _, _, _ => .error .outOfFuel
  | fuel + 1, constructs, abs, state =>
      match ctx.function.get abs with
      | none => .error .dangling
      | some abstraction =>
          if abstraction.isFunction ∧ abs ≠ ctx.function.self then
            .error (.assertion "!is_function(abs) || abs == ctx->function")
          else if abs ∈ state.nodes then .ok state
          else do
            let state ← processCfNode ctx (getOrEnqueue fuel) constructs abs abstraction.body
              { state with nodes := abs :: state.nodes }
            return { state with contents := state.contents ++ [abs] }

end Process

/-! ## Validation -/

def countEdges (edges : List CFEdge) (types : List CFEdgeType) : Nat :=
  edges.countP fun edge => edge.type ∈ types

/-- The checks of `validate_cfg` on one node. -/
def validateNode (cfg : CFG) (node : CFNodeId) : Except CfgError Unit :=
  let structuredBodyUses :=
    countEdges (cfg.predEdges node) [.structuredEnterBodyEdge, .structuredTailEdge]
  let numJumps := countEdges (cfg.predEdges node) [.jumpEdge]
  let numExits := countEdges (cfg.predEdges node) [.structuredLeaveBodyEdge]
  let isTail := countEdges (cfg.predEdges node) [.structuredTailEdge] ≠ 0
  if node ≠ cfg.entry ∧ structuredBodyUses > 0 then
    if structuredBodyUses > 1 then .error (.usedMoreThanOnce node structuredBodyUses)
    else if numJumps > 0 then .error (.alsoJumpedInto node numJumps)
    else if ¬ isTail ∧ numExits > 0 then .error (.notMergeTarget node numExits)
    else .ok ()
  else .ok ()

def validateCfg (cfg : CFG) : Except CfgError Unit :=
  cfg.contents.forM (validateNode cfg)

/-! ## Forward graphs -/

/-- What `shd_new_cfg` does up to `validate_cfg`. The recursion is at most as deep as
there are abstractions. -/
def exploreCfg (function : Function) (entry : AbsId) (config : CFGBuildConfig) :
    Except CfgError BuildState :=
  getOrEnqueue ⟨function, entry, config⟩ (function.abstractions.length + 1)
    ⟨none, none, none⟩ entry BuildState.empty

/-- The lists of a node of the finished graph. -/
def ofNode {E : Type} (lists : AbsId → List E) : CFNodeId → List E
  | some abs => lists abs
  | none => []

def BuildState.toCFG (state : BuildState) (entry : AbsId) : CFG where
  entry := some entry
  contents := state.contents.map some
  succEdges := ofNode state.succEdges
  predEdges := ofNode state.predEdges

/-- The graph before flipping and analysis. -/
def buildCfg (function : Function) (entry : AbsId) (config : CFGBuildConfig) :
    Except CfgError CFG := do
  let state ← exploreCfg function entry config
  let cfg := state.toCFG entry
  validateCfg cfg
  return cfg

/-! ## Flipped graphs -/

def CFEdge.flip (edge : CFEdge) : CFEdge := { edge with src := edge.dst, dst := edge.src }

/-- The edges that `flip_cfg` makes out of the virtual entry. -/
def virtualEdge (dst : CFNodeId) : CFEdge := ⟨.jumpEdge, none, dst, none, none⟩

/-- The state of the loop of `flip_cfg`; the entry is NULL at first. -/
structure FlipState where
  entry : Option CFNodeId
  succEdges : CFNodeId → List CFEdge
  predEdges : CFNodeId → List CFEdge

def FlipState.addVirtualEdge (state : FlipState) (dst : CFNodeId) : FlipState :=
  { state with
    succEdges := appendAt state.succEdges none (virtualEdge dst)
    predEdges := appendAt state.predEdges dst (virtualEdge dst) }

/-- Both lists of a node change places, and each edge in them its ends. -/
def FlipState.flipEdges (state : FlipState) (cur : CFNodeId) : FlipState :=
  { state with
    succEdges := fun n =>
      if n = cur then (state.predEdges n).map CFEdge.flip else state.succEdges n
    predEdges := fun n =>
      if n = cur then (state.succEdges n).map CFEdge.flip else state.predEdges n }

/-- One turn of the loop: a node without predecessors becomes the entry, and the
second one brings in the virtual entry before all of them. -/
def flipNode (state : FlipState) (cur : CFNodeId) : FlipState :=
  let state := state.flipEdges cur
  if state.predEdges cur = [] then
    match state.entry with
    | none => { state with entry := some cur }
    | some none => state.addVirtualEdge cur
    | some (some prevEntry) =>
        { (state.addVirtualEdge (some prevEntry)).addVirtualEdge cur with entry := some none }
  else state

def flipCfg (cfg : CFG) : Except CfgError CFG :=
  let state := cfg.contents.foldl flipNode ⟨none, cfg.succEdges, cfg.predEdges⟩
  match state.entry with
  | none => .error (.assertion "cfg->entry")
  | some entry =>
      .ok { entry
            contents := if entry = none then cfg.contents ++ [none] else cfg.contents
            succEdges := state.succEdges
            predEdges := state.predEdges }

end Shady
