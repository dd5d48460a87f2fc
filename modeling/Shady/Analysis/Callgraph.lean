import Mathlib.Logic.Relation
import Mathlib.Data.Fintype.Basic

/-!
# Call graphs

What the analysis of the call graph sees of a module: for each function the callees of its
`Call` and `TailCall` nodes, and whether its address is used in another way. The call
graph keeps the edges of a function in a dictionary; the calls stand here in the order in
which that dictionary is iterated.
-/

set_option autoImplicit false

namespace Shady

/-- The callee of a `Call` or `TailCall`: a function named by an immediate `FnAddr`, or
some other value. -/
inductive Callee (count : Nat)
  | direct (fn : Fin count)
  | indirect
  deriving DecidableEq

structure CallGraphInput (count : Nat) where
  calls : Fin count → List (Callee count)
  /-- A `FnAddr` of the function is used, other than as the callee of a call. -/
  addressUsed : Fin count → Bool

structure CGNode (count : Nat) where
  callees : List (Fin count)
  isRecursive : Bool
  isAddressCaptured : Bool
  callsIndirect : Bool

variable {count : Nat}

def Callee.target : Callee count → Option (Fin count)
  | .direct fn => some fn
  | .indirect => none

/-- The node that `analyze_fn` makes for a function. `onCycle` is what `tarjan` finds to
be part of a longer chain of calls. -/
def analyzeFn (input : CallGraphInput count) (onCycle : Fin count → Bool) (fn : Fin count) :
    CGNode count :=
  let callees := (input.calls fn).filterMap Callee.target
  { callees
    isRecursive := decide (fn ∈ callees) || onCycle fn
    isAddressCaptured := input.addressUsed fn
    callsIndirect := (input.calls fn).any fun callee => decide (callee = .indirect) }

/-- `CallGraph.fn2cgn` -/
abbrev CallGraph (count : Nat) := Fin count → CGNode count

def newCallgraph (input : CallGraphInput count) (onCycle : Fin count → Bool) : CallGraph count :=
  analyzeFn input onCycle

/-- `f` has a call of `g`. -/
def CallGraph.Calls (graph : CallGraph count) (f g : Fin count) : Prop := g ∈ (graph f).callees

theorem mem_callees {input : CallGraphInput count} {onCycle : Fin count → Bool}
    {f g : Fin count} :
    g ∈ (newCallgraph input onCycle f).callees ↔ .direct g ∈ input.calls f := by
  simp only [newCallgraph, analyzeFn, List.mem_filterMap]
  constructor
  · intro listed
    obtain ⟨callee, member, target⟩ := listed
    cases callee with
    | direct fn =>
        cases target
        exact member
    | indirect => cases target
  · exact fun member => ⟨_, member, rfl⟩

theorem callsIndirect_iff {input : CallGraphInput count} {onCycle : Fin count → Bool}
    {f : Fin count} :
    (newCallgraph input onCycle f).callsIndirect = true ↔ .indirect ∈ input.calls f := by
  simp [newCallgraph, analyzeFn]

end Shady
