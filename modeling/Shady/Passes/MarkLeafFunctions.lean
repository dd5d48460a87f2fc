import Shady.Analysis.Callgraph

/-!
# Marking leaf functions

`is_leaf_fn` walks the call graph with a memo dictionary. A pointer to an entry stays good
until the dictionary grows, which frees the table it points into. The walk over a
function's body then drops those whose joins need more than the function itself.
-/

set_option autoImplicit false

namespace Shady

/-! ## Join points -/

/-- A use of the join point of a `Control`, besides that of the block that binds it. -/
inductive JoinPointUse
  | joinPoint
  | other
  deriving DecidableEq

structure ControlUses where
  uses : List JoinPointUse

/-- The join point of a `Join`. -/
inductive JoinOperand
  /-- A parameter, with the position of the `Control` of the function that binds it. -/
  | param (control : Option Nat)
  | other
  deriving DecidableEq

structure LeafInput (count : Nat) extends CallGraphInput count where
  controls : Fin count → List ControlUses
  joins : Fin count → List JoinOperand

def isControlStatic (control : ControlUses) : Bool :=
  control.uses.all fun use => decide (use = .joinPoint)

/-- `shd_get_control_for_jp` -/
def getControlForJp (controls : List ControlUses) : JoinOperand → Option ControlUses
  | .param control => control.bind (controls[·]?)
  | .other => none

/-- What the `Join` case of `process` checks. -/
def joinsInside (controls : List ControlUses) (join : JoinOperand) : Bool :=
  match getControlForJp controls join with
  | some control => isControlStatic control
  | none => false

variable {count : Nat}

/-- The `Control` and `Join` nodes of the body leave `is_leaf` as it is. -/
def keepsLeaf (input : LeafInput count) (fn : Fin count) : Bool :=
  (input.controls fn).all isControlStatic && (input.joins fn).all (joinsInside (input.controls fn))

/-! ## The memo dictionary -/

structure FnInfo where
  isLeaf : Bool
  done : Bool
  deriving DecidableEq

/-- The dictionary `fns`: its entries, its number of buckets, and whether a write went to a
table that had been freed. -/
structure LeafMemo (count : Nat) where
  info : Fin count → Option FnInfo
  entries : Nat
  size : Nat
  stray : Bool

/-- The load factor that makes `dict_insert` grow the table first. -/
def overloaded (entries size : Nat) : Bool := decide (3 * size < 5 * entries)

namespace LeafMemo

def new (count : Nat) : LeafMemo count := ⟨fun _ => none, 0, 32, false⟩

def insert (memo : LeafMemo count) (fn : Fin count) (info : FnInfo) : LeafMemo count :=
  { memo with
    info := fun g => if g = fn then some info else memo.info g
    entries := memo.entries + 1
    size := if overloaded memo.entries memo.size then 2 * memo.size else memo.size }

/-- A write through a pointer to the entry of `fn` that was fetched when the table had
`table` buckets. -/
def write (memo : LeafMemo count) (table : Nat) (fn : Fin count) (info : FnInfo) :
    LeafMemo count :=
  if table = memo.size then
    { memo with info := fun g => if g = fn then some info else memo.info g }
  else { memo with stray := true }

end LeafMemo

/-! ## The pass -/

/-- What rules a function out on its own. -/
def CGNode.ruledOut (node : CGNode count) : Bool :=
  node.isAddressCaptured || node.isRecursive || node.callsIndirect

/-- `is_leaf_fn`, with a bound on the depth of the recursion. -/
def isLeafFn (graph : CallGraph count) :
    Nat → Fin count → LeafMemo count → Option (Bool × LeafMemo count)
  | 0, _, _ => none
  | fuel + 1, fn, memo =>
      match memo.info fn with
      | some info =>
          -- a function before `done` is set is part of a recursive chain
          if !info.done then some (false, memo.write memo.size fn ⟨false, true⟩)
          else some (info.isLeaf, memo)
      | none =>
          let memo := memo.insert fn ⟨false, false⟩
          let info := memo.size
          if (graph fn).ruledOut then some (false, memo.write info fn ⟨false, true⟩)
          else do
            let memo ← (graph fn).callees.foldlM (fun memo callee => do
              let (leaf, memo) ← isLeafFn graph fuel callee memo
              pure (if leaf then memo else memo.write info fn ⟨false, true⟩)) memo
            -- the entry is fetched again, now that the table may have grown
            match memo.info fn with
            | some found =>
                if !found.done then pure (true, memo.write memo.size fn ⟨true, true⟩)
                else pure (found.isLeaf, memo)
            | none => none

/-- The functions in the order in which `process` comes to them, each with whether it gets
the annotation. -/
def markLeafFunctions (input : LeafInput count) (graph : CallGraph count) :
    List (Fin count) → LeafMemo count → Option (List (Fin count × Bool) × LeafMemo count)
  | [], memo => some ([], memo)
  | fn :: order, memo => do
      let (leaf, memo) ← isLeafFn graph (count + 1) fn memo
      let (rest, memo) ← markLeafFunctions input graph order memo
      pure ((fn, leaf && keepsLeaf input fn) :: rest, memo)

end Shady
