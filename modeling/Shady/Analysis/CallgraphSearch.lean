import Shady.Analysis.DomtreeTotal

/-!
# Building the call graph

`shd_new_callgraph` visits the blocks of each declared function and, from a call, first
those of the callee. A call adds an edge, or marks the caller if the callee is no
function. The dictionary and the sets of edges are lists here; the order in which a
dictionary is iterated is a parameter.
-/

set_option autoImplicit false

namespace Shady.Callgraph
open Fallible

/-! ## Modules -/

/-- The address of a node with a `mem` operand. -/
abbrev InstrId := Nat

variable {count : Nat}

scoped instance fnLawful : LawfulBEq (Fin count) := inferInstance

/-- The `callee` operand of a `Call` or a `TailCall`. -/
inductive CalleeOperand (count : Nat)
  | function (fn : Fin count)
  | fnAddr (fn : Fin count)
  | other
  deriving DecidableEq

inductive MemNode (count : Nat)
  | call (callee : CalleeOperand count)
  | tailCall (callee : CalleeOperand count)
  | other
  deriving DecidableEq

inductive UserTag
  | call
  | tailCall
  | other
  deriving DecidableEq

structure Use where
  user : UserTag
  operandName : String
  deriving DecidableEq

structure FunctionNode where
  controlFlow : Function
  /-- The terminator of a block, followed by the nodes that `mem` operands lead to. -/
  memChain : AbsId → List InstrId
  /-- The uses of the `FnAddr` of the function. -/
  fnAddrUses : List Use

/-- The initial values are given by their nodes along `mem` operands. -/
inductive Declaration (count : Nat)
  | function (fn : Fin count)
  | globalVariable (init : Option (List InstrId))
  | constant (value : Option (List InstrId))
  | other

structure Module (count : Nat) where
  function : Fin count → FunctionNode
  node : InstrId → MemNode count
  declarations : List (Declaration count)

/-! ## Call graphs -/

structure CGEdge (count : Nat) where
  srcFn : Fin count
  dstFn : Fin count
  instr : InstrId
  deriving DecidableEq

/-- The field `tarjan` of a node; the index `none` is -1. -/
structure TarjanMarks where
  index : Option Nat
  lowlink : Nat
  onStack : Bool
  deriving DecidableEq

structure CGNode (count : Nat) where
  callers : List (CGEdge count)
  callees : List (CGEdge count)
  tarjan : TarjanMarks
  isRecursive : Bool
  isAddressCaptured : Bool
  callsIndirect : Bool
  deriving DecidableEq

def CGNode.new : CGNode count := ⟨[], [], ⟨none, 0, false⟩, false, false, false⟩

/-- The keys of `fn2cgn`, and its values. -/
structure CallGraph (count : Nat) where
  fns : List (Fin count)
  node : Fin count → CGNode count

def CallGraph.empty : CallGraph count := ⟨[], fun _ => .new⟩

/-- A write to the node of a function. -/
def CallGraph.update (graph : CallGraph count) (fn : Fin count)
    (write : CGNode count → CGNode count) : CallGraph count :=
  { graph with node := fun f => if f = fn then write (graph.node f) else graph.node f }

def CallGraph.insert (graph : CallGraph count) (fn : Fin count) : CallGraph count :=
  ⟨graph.fns ++ [fn], fun f => if f = fn then .new else graph.node f⟩

@[simp] theorem CallGraph.update_fns (graph : CallGraph count) (fn : Fin count)
    (write : CGNode count → CGNode count) : (graph.update fn write).fns = graph.fns := rfl

@[simp] theorem CallGraph.update_same (graph : CallGraph count) (fn : Fin count)
    (write : CGNode count → CGNode count) :
    (graph.update fn write).node fn = write (graph.node fn) := by
  simp [CallGraph.update]

@[simp] theorem CallGraph.update_other (graph : CallGraph count) {f fn : Fin count}
    (write : CGNode count → CGNode count) (different : f ≠ fn) :
    (graph.update fn write).node f = graph.node f := by
  simp [CallGraph.update, different]

/-- `shd_compare_cgedge` -/
def compareCgedge (a b : CGEdge count) : Bool := a.srcFn = b.srcFn ∧ a.instr = b.instr

def insertEdge (edges : List (CGEdge count)) (edge : CGEdge count) : List (CGEdge count) :=
  if edges.any (compareCgedge edge) then edges else edges ++ [edge]

/-! ## Search for call sites -/

/-- `ignore_immediate_fn_addr`, and the test of the tag after it. -/
def CalleeOperand.ignoreImmediateFnAddr : CalleeOperand count → Option (Fin count)
  | .function fn => some fn
  | .fnAddr fn => some fn
  | .other => none

def visitCallsite (analyze : Fin count → CallGraph count → Except CfgError (CallGraph count))
    (root callee : Fin count) (instr : InstrId) (graph : CallGraph count) :
    Except CfgError (CallGraph count) := do
  let graph ← analyze callee graph
  -- immediate recursion
  let graph := if callee = root then graph.update root ({ · with isRecursive := true }) else graph
  let edge : CGEdge count := ⟨root, callee, instr⟩
  let graph := graph.update root fun n => { n with callees := insertEdge n.callees edge }
  return graph.update callee fun n => { n with callers := insertEdge n.callers edge }

def visitCall (analyze : Fin count → CallGraph count → Except CfgError (CallGraph count))
    (root : Fin count) (callee : CalleeOperand count) (instr : InstrId)
    (graph : CallGraph count) : Except CfgError (CallGraph count) :=
  match callee.ignoreImmediateFnAddr with
  | some fn => visitCallsite analyze root fn instr graph
  | none => .ok (graph.update root ({ · with callsIndirect := true }))

/-- `search_for_callsites` at one node of a chain of `mem` operands. -/
def searchForCallsites (m : Module count)
    (analyze : Fin count → CallGraph count → Except CfgError (CallGraph count))
    (root : Option (Fin count)) (graph : CallGraph count) (instr : InstrId) :
    Except CfgError (CallGraph count) :=
  match m.node instr, root with
  | .call callee, some root => visitCall analyze root callee instr graph
  | .call _, none => .error (.assertion "calls can only occur in functions")
  | .tailCall callee, some root => visitCall analyze root callee instr graph
  | .tailCall _, none => .error (.assertion "tail calls can only occur in functions")
  | .other, _ => .ok graph

/-- `get_abstraction_body` is not NULL. -/
def FunctionNode.hasBody (fn : FunctionNode) : Bool :=
  ((fn.controlFlow.get fn.controlFlow.self).bind (·.body)).isSome

/-- The nodes that `shd_visit_function_rpo` leads to, block by block. -/
def FunctionNode.visited (fn : FunctionNode) (analysed : AnalysedCFG) : List InstrId :=
  analysed.rpo.rpo.flatMap fun block => (block.map fn.memChain).getD []

def visitFunctionRpo (visit : CallGraph count → InstrId → Except CfgError (CallGraph count))
    (fn : FunctionNode) (graph : CallGraph count) : Except CfgError (CallGraph count) := do
  let analysed ← newCfg fn.controlFlow fn.controlFlow.self defaultForwardCfgBuild
  if analysed.rpo.rpo.head? ≠ some (some fn.controlFlow.self) then
    .error (.assertion "cfg->rpo[0]->node == function")
  else (fn.visited analysed).foldlM visit graph

/-- `analyze_fn`. A nested call is for a further function. -/
def analyzeFn (m : Module count) :
    Nat → Fin count → CallGraph count → Except CfgError (CallGraph count)
  | 0, _, _ => .error .outOfFuel
  | fuel + 1, fn, graph =>
      if fn ∈ graph.fns then .ok graph
      else if (m.function fn).hasBody then
        visitFunctionRpo (searchForCallsites m (analyzeFn m fuel) (some fn)) (m.function fn)
          (graph.insert fn)
      else .ok (graph.insert fn)

def Use.captures (use : Use) : Bool :=
  !(use.user = .call ∧ use.operandName = "callee") &&
    !(use.user = .tailCall ∧ use.operandName = "callee")

/-- The search in an initial value, which is in no function. -/
def analyzeValue (m : Module count) (value : Option (List InstrId)) (graph : CallGraph count) :
    Except CfgError (CallGraph count) :=
  match value with
  | some nodes => nodes.foldlM (searchForCallsites m (analyzeFn m (count + 1)) none) graph
  | none => .ok graph

/-- One turn of the loop over the declarations. -/
def analyzeDeclaration (m : Module count) (graph : CallGraph count) :
    Declaration count → Except CfgError (CallGraph count)
  | .function fn => do
      let graph ← analyzeFn m (count + 1) fn graph
      if (m.function fn).fnAddrUses.any Use.captures then
        return graph.update fn ({ · with isAddressCaptured := true })
      else return graph
  | .globalVariable init => analyzeValue m init graph
  | .constant value => analyzeValue m value graph
  | .other => .ok graph

/-! ## Components -/

/-- The orders in which `fn2cgn` and the sets of edges are iterated. -/
structure DictOrder (count : Nat) where
  fns : List (Fin count) → List (Fin count)
  edges : List (CGEdge count) → List (CGEdge count)
  fns_perm : ∀ keys, (fns keys).Perm keys
  edges_perm : ∀ keys, (edges keys).Perm keys

/-- What `strongconnect` works on. -/
structure TarjanState (count : Nat) where
  graph : CallGraph count
  index : Nat
  /-- The last element first. -/
  stack : List (Fin count)

def CGNode.mark (n : CGNode count) (write : TarjanMarks → TarjanMarks) : CGNode count :=
  { n with tarjan := write n.tarjan }

/-- The first lines of `strongconnect`. -/
def TarjanState.enter (s : TarjanState count) (v : Fin count) : TarjanState count where
  graph := s.graph.update v (·.mark fun _ => ⟨some s.index, s.index, true⟩)
  index := s.index + 1
  stack := v :: s.stack

def TarjanState.lower (s : TarjanState count) (v : Fin count) (bound : Nat) :
    TarjanState count :=
  { s with graph := s.graph.update v (·.mark fun t => { t with lowlink := min t.lowlink bound }) }

/-- One callee of `v`. -/
def considerSuccessor
    (connect : Fin count → TarjanState count → Except CfgError (TarjanState count))
    (v : Fin count) (s : TarjanState count) (e : CGEdge count) :
    Except CfgError (TarjanState count) :=
  match (s.graph.node e.dstFn).tarjan.index with
  | none => do
      let s ← connect e.dstFn s
      return s.lower v (s.graph.node e.dstFn).tarjan.lowlink
  | some index =>
      if (s.graph.node e.dstFn).tarjan.onStack then .ok (s.lower v index) else .ok s

/-- The stack down to `v` is popped. -/
def popScc (s : TarjanState count) (v : Fin count) : Except CfgError (TarjanState count) :=
  match s.stack.dropWhile (· ≠ v) with
  | [] => .error (.assertion "shd_list_count(stack) > 0")
  | _ :: rest =>
      let scc := s.stack.takeWhile (· ≠ v) ++ [v]
      .ok { s with
        graph := { s.graph with
          node := fun w =>
            if w ∈ scc then
              { s.graph.node w with
                tarjan := { (s.graph.node w).tarjan with onStack := false }
                isRecursive := (s.graph.node w).isRecursive || decide (scc.length > 1) }
            else s.graph.node w }
        stack := rest }

def strongconnect (order : DictOrder count) :
    Nat → Fin count → TarjanState count → Except CfgError (TarjanState count)
  | 0, _, _ => .error .outOfFuel
  | fuel + 1, v, s => do
      let s ← (order.edges (s.graph.node v).callees).foldlM
        (considerSuccessor (strongconnect order fuel) v) (s.enter v)
      if some (s.graph.node v).tarjan.lowlink = (s.graph.node v).tarjan.index then popScc s v
      else return s

def tarjan (order : DictOrder count) (graph : CallGraph count) :
    Except CfgError (CallGraph count) := do
  let s ← (order.fns graph.fns).foldlM
    (fun s n =>
      if (s.graph.node n).tarjan.index = none then strongconnect order count n s else .ok s)
    ⟨graph, 0, []⟩
  return s.graph

def newCallgraph (m : Module count) (order : DictOrder count) :
    Except CfgError (CallGraph count) := do
  let graph ← m.declarations.foldlM (analyzeDeclaration m) .empty
  tarjan order graph

end Shady.Callgraph
