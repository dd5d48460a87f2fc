import Shady.Analysis.Domtree

/-!
# Loop trees

The strongly connected components of the graph become the children of the root.
Inside a component that is a loop, the nodes entered from outside are its heads;
with the edges to them cut, the components of the rest become the children in
turn. The flags of the nodes stay as they are from one level to the next, only
`in_set` is cleared before each walk.
-/

set_option autoImplicit false

namespace Shady

/-- `LTNode`, with the fields that do not follow from its place in the tree. A leaf has
one node of the graph; the nodes of a head are the entries of its loop. -/
inductive LTNode
  | leaf (depth : Nat) (cfNodes : List CFNodeId)
  | head (depth : Nat) (cfNodes : List CFNodeId) (children : List LTNode)

inductive LTNodeType
  | head
  | leaf
  deriving DecidableEq, Repr

/-- A node that `walk_scc` appends to the children of its parent. -/
structure NewLTNode where
  type : LTNodeType
  cfNodes : List CFNodeId
  deriving DecidableEq, Repr

/-- The builder, with the states of the nodes of the graph (the array is indexed by
`rpo_index`), the counter and the children added so far. -/
structure LoopTreeBuilder where
  onStack : CFNodeId → Bool
  isHead : CFNodeId → Bool
  inSet : CFNodeId → Bool
  dfs : CFNodeId → Nat
  lowLink : CFNodeId → Nat
  stack : List CFNodeId
  counter : Nat
  children : List NewLTNode

/-- The value of `f` at `n` replaced. -/
def setAt {A : Type} (f : CFNodeId → A) (n : CFNodeId) (value : A) : CFNodeId → A :=
  fun v => if v = n then value else f v

@[simp] theorem setAt_same {A : Type} (f : CFNodeId → A) (n : CFNodeId) (value : A) :
    setAt f n value n = value := by
  simp [setAt]

@[simp] theorem setAt_other {A : Type} (f : CFNodeId → A) {n v : CFNodeId} (value : A)
    (other : v ≠ n) : setAt f n value v = f v := by
  simp [setAt, other]

namespace LoopTreeBuilder

/-- `visit`. The list `stack` has its last element first. -/
def visit (ltb : LoopTreeBuilder) (n : CFNodeId) : LoopTreeBuilder :=
  { ltb with
    inSet := setAt ltb.inSet n true
    dfs := setAt ltb.dfs n ltb.counter
    lowLink := setAt ltb.lowLink n ltb.counter
    stack := n :: ltb.stack
    onStack := setAt ltb.onStack n true
    counter := ltb.counter + 1 }

/-- `lowlink(cur) = min(lowlink(cur), lowlink(succ))`. -/
def lower (ltb : LoopTreeBuilder) (cur succ : CFNodeId) : LoopTreeBuilder :=
  { ltb with lowLink := setAt ltb.lowLink cur (min (ltb.lowLink cur) (ltb.lowLink succ)) }

end LoopTreeBuilder

section Walk
variable (cfg : CFG)

/-- `is_leaf`: a single node without an edge to itself, unless that is a back-edge. -/
def isLeaf (ltb : LoopTreeBuilder) (n : CFNodeId) (num : Nat) : Bool :=
  num = 1 && (cfg.succEdges n).all fun e => ltb.isHead e.dst || n != e.dst

/-- The loop over the predecessors of `n`, until one is not `in_scc`. -/
def enteredFromOutside (scc : List CFNodeId) (n : CFNodeId) : List CFEdge → Except CfgError Bool
  | [] => .ok false
  | e :: edges =>
      if e.dst ≠ n then .error (.assertion "n == pred_edges[j].dst")
      else if e.src ∉ scc then .ok true
      else enteredFromOutside scc n edges

/-- One turn of the loop that collects the heads of a component. -/
def collectHead (scc : List CFNodeId) (heads : List CFNodeId) (n : CFNodeId) :
    Except CfgError (List CFNodeId) :=
  if cfg.entry = n then .ok (heads ++ [n])
  else do
    if ← enteredFromOutside scc n (cfg.predEdges n) then return heads ++ [n] else return heads

/-- The end of `walk_scc` at the root of a component: the nodes on the stack down to
`cur` leave it (`in_scc` marks them meanwhile) and become a child of the parent. -/
def closeScc (ltb : LoopTreeBuilder) (cur : CFNodeId) : Except CfgError LoopTreeBuilder :=
  match ltb.stack.dropWhile (· ≠ cur) with
  | [] => .error .outOfBounds
  | _ :: rest => do
      let scc := (cur :: (ltb.stack.takeWhile (· ≠ cur)).reverse)
      let heads ← scc.foldlM (collectHead cfg scc) []
      let leaf := isLeaf cfg ltb cur scc.length
      if leaf ∧ heads.length ≠ 1 then .error (.assertion "shd_list_count(heads) == 1")
      else return { ltb with
        children := ltb.children ++ [⟨if leaf then .leaf else .head, heads⟩]
        onStack := fun v => if v ∈ scc then false else ltb.onStack v
        stack := rest }

/-- One successor of `cur` in `walk_scc`. -/
def walkSuccessor
    (walk : CFNodeId → LoopTreeBuilder → Except CfgError LoopTreeBuilder)
    (cur : CFNodeId) (ltb : LoopTreeBuilder) (succe : CFEdge) :
    Except CfgError LoopTreeBuilder :=
  if ltb.isHead succe.dst then .ok ltb -- this is a backedge
  else if ¬ ltb.inSet succe.dst then do
    let ltb ← walk succe.dst ltb
    return ltb.lower cur succe.dst
  else if ltb.onStack succe.dst then .ok (ltb.lower cur succe.dst)
  else .ok ltb

def walkScc : Nat → CFNodeId → LoopTreeBuilder → Except CfgError LoopTreeBuilder
  | 0, _, _ => .error .outOfFuel
  | fuel + 1, cur, ltb => do
      let ltb ← (cfg.succEdges cur).foldlM (walkSuccessor (walkScc fuel) cur) (ltb.visit cur)
      if ltb.lowLink cur = ltb.dfs cur then closeScc cfg ltb cur else return ltb

/-- One turn of the loop over the heads in `recurse`: the nodes of the new children
become heads after the walk. -/
def walkHead (ltb : LoopTreeBuilder) (head : CFNodeId) : Except CfgError LoopTreeBuilder := do
  let before := ltb.children.length
  let ltb ← walkScc cfg cfg.size head { ltb with inSet := fun _ => false, counter := 0 }
  let marked := (ltb.children.drop before).flatMap (·.cfNodes)
  return { ltb with isHead := fun v => if v ∈ marked then true else ltb.isHead v }

/-- The second loop of `recurse`, where `recurse` treats a child that is a head. -/
def finishChild
    (recurse : List CFNodeId → LoopTreeBuilder → Except CfgError (List LTNode × LoopTreeBuilder))
    (depth : Nat) (done : List LTNode × LoopTreeBuilder) (child : NewLTNode) :
    Except CfgError (List LTNode × LoopTreeBuilder) :=
  match child.type with
  | .leaf => .ok (done.1 ++ [.leaf depth child.cfNodes], done.2)
  | .head => do
      let (children, ltb) ← recurse child.cfNodes done.2
      return (done.1 ++ [.head depth child.cfNodes children], ltb)

/-- `recurse`, which gives the children of the parent. -/
def recurse : Nat → Nat → List CFNodeId → LoopTreeBuilder →
    Except CfgError (List LTNode × LoopTreeBuilder)
  | 0, _, _, _ => .error .outOfFuel
  | fuel + 1, depth, heads, ltb => do
      let ltb ← heads.foldlM (walkHead cfg) { ltb with children := [] }
      ltb.children.foldlM (finishChild (recurse fuel (depth + 1)) depth) ([], ltb)

end Walk

/-- The leaf that a pointer in the map leads to: its `cf_nodes`, and those of the nodes
above it, the innermost first. -/
structure LTLeaf where
  cfNodes : List CFNodeId
  parents : List (List CFNodeId)
  deriving DecidableEq, Repr

structure LoopTree where
  root : LTNode
  map : List (AbsId × LTLeaf)

mutual
/-- `build_map_recursive`. Hashing the `node` of the virtual entry reads through NULL. -/
def buildMapRecursive (parents : List (List CFNodeId)) (map : List (AbsId × LTLeaf)) :
    LTNode → Except CfgError (List (AbsId × LTLeaf))
  | .leaf _ cfNodes =>
      match cfNodes with
      | [some node] => .ok ((node, ⟨cfNodes, parents⟩) :: map)
      | [none] => .error .nullPointer
      | _ => .error (.assertion "shd_list_count(n->cf_nodes) == 1")
  | .head _ cfNodes children => buildMapChildren (cfNodes :: parents) map children

def buildMapChildren (parents : List (List CFNodeId)) (map : List (AbsId × LTLeaf)) :
    List LTNode → Except CfgError (List (AbsId × LTLeaf))
  | [] => .ok map
  | child :: children =>
      match buildMapRecursive parents map child with
      | .error e => .error e
      | .ok map => buildMapChildren parents map children
end

def loopTreeLookup (lt : LoopTree) (block : AbsId) : Except CfgError LTLeaf :=
  match lt.map.lookup block with
  | some found => .ok found
  | none => .error (.assertion "false")

def LoopTreeBuilder.initial : LoopTreeBuilder where
  onStack := fun _ => false
  isHead := fun _ => false
  inSet := fun _ => false
  dfs := fun _ => 2 ^ 64 - 1
  lowLink := fun _ => 2 ^ 64 - 1
  stack := []
  counter := 0
  children := []

/-- `shd_new_loop_tree`. -/
def newLoopTree (cfg : CFG) : Except CfgError LoopTree := do
  let (children, _) ← recurse cfg (cfg.size + 1) 1 [cfg.entry] .initial
  let root := LTNode.head 0 [] children
  let map ← buildMapRecursive [] [] root
  return ⟨root, map⟩

end Shady
