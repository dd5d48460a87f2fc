import Mathlib.Algebra.GroupWithZero.Nat
import Mathlib.Data.Fin.Basic
import Shady.Library.CountedLoop

/-!
# Workgroups as loops

Model of `src/shady/passes/lower_workgroups.c`. A compute entry point becomes a wrapper that
calls the old one in six loops, over the workgroups and over the subgroups of each. The generated
code is run by every lane of a subgroup.
-/

set_option autoImplicit false

namespace Shady.Workgroups

open Imperative

abbrev Word := BitVec 32

abbrev Dim := Fin 3

scoped instance dimNeZero : NeZero 3 := ⟨by decide⟩

/-! ## The generated code -/

inductive Scope
  | workgroup | subgroup
  deriving DecidableEq

inductive Expr
  | literal (value : Word)
  /-- `gx`, `gy`, `gz`, `sgx`, `sgy`, `sgz` -/
  | param (scope : Scope) (dim : Dim)
  /-- An element of what is loaded from `NumWorkgroups`. -/
  | numWorkgroups (dim : Dim)
  | subgroupLocalInvocationId
  | add (left right : Expr)
  | mul (left right : Expr)

inductive Builtin
  | workgroupId | localInvocationId | globalInvocationId
  deriving DecidableEq

/-- The body of an abstraction; `rest` is what follows an instruction. -/
inductive Code
  /-- An `If` whose one case breaks out of the loop. -/
  | breakIfGte (i max : Expr) (rest : Code)
  | store (builtin : Builtin) (value : Dim → Expr) (rest : Code)
  | call (callee : String) (args : List Nat) (rest : Code)
  | loop (scope : Scope) (dim : Dim) (initialArg : Expr) (body rest : Code)
  | mergeContinue (arg : Expr)
  | fnRet

structure Annotation where
  name : String
  payload : Option String
  deriving DecidableEq

structure Function (Body : Type) where
  name : String
  annotations : List Annotation
  params : Nat
  body : Body

/-- What the pass asserts of the sizes. -/
structure Config where
  subgroupSize : Word
  workgroupSize : Dim → Word
  subgroupSize_ne_zero : subgroupSize ≠ 0
  workgroupSize_ne_zero : ∀ dim, workgroupSize dim ≠ 0

/-! ## The pass -/

def addBoundsCheck (i max : Expr) (rest : Code) : Code := .breakIfGte i max rest

namespace Config
variable (config : Config)

def numSubgroups (dim : Dim) : Word :=
  if dim = 0 then config.workgroupSize 0 / config.subgroupSize else config.workgroupSize dim

def maxes : Scope → Dim → Expr
  | .workgroup, dim => .numWorkgroups dim
  | .subgroup, dim => .literal (config.numSubgroups dim)

def localId (dim : Dim) : Expr :=
  if dim = 0 then
    .add (.mul (.literal config.subgroupSize) (.param .subgroup 0)) .subgroupLocalInvocationId
  else .param .subgroup dim

def globalId (dim : Dim) : Expr :=
  .add (.mul (.literal (config.workgroupSize dim)) (.param .workgroup dim)) (config.localId dim)

/-- The loops, the outermost first. -/
def depths : List (Scope × Dim) :=
  [(.workgroup, 0), (.workgroup, 1), (.workgroup, 2), (.subgroup, 0), (.subgroup, 1), (.subgroup, 2)]

/-- What the builder of the innermost loop holds after its bounds check. -/
def callInner (inner : String) (params : Nat) (rest : Code) : Code :=
  .store .workgroupId (.param .workgroup) <| .store .localInvocationId config.localId <|
    .store .globalInvocationId config.globalId <| .call inner (List.range params) rest

def loops (inner : String) (params : Nat) : List (Scope × Dim) → Code → Code
  | [], rest => config.callInner inner params rest
  | (scope, dim) :: deeper, rest =>
      .loop scope dim (.literal 0)
        (addBoundsCheck (.param scope dim) (config.maxes scope dim)
          (loops inner params deeper (.mergeContinue (.add (.param scope dim) (.literal 1)))))
        rest

end Config

def innerName (name : String) : String := name ++ "_wrapped"

/-- The wrapper takes the name and the annotations; the old entry point is one no more. -/
def wrapEntryPoint {Body : Type} (config : Config) (node : Function Body) :
    Function Code × Function Body :=
  ({ node with body := config.loops (innerName node.name) node.params Config.depths .fnRet },
    { node with
      name := innerName node.name
      annotations := node.annotations.filter fun annotation => annotation.name ≠ "EntryPoint" })

/-- The case of `Function` in `process`, for functions other than compute entry points. -/
def process {Body : Type} (config : Config) (node : Function Body) :
    Option (Function Code × Function Body) :=
  match node.annotations.find? fun annotation => annotation.name = "EntryPoint" with
  | some entryPoint =>
      if entryPoint.payload = some "Compute" then some (wrapEntryPoint config node) else none
  | none => none

/-! ## Runs -/

@[ext]
structure Env where
  counters : Scope → Dim → Word
  numWorkgroups : Dim → Word
  args : Nat → Word
  lane : Word

/-- What the wrapped kernel sees when it is called. -/
structure Call where
  callee : String
  args : List Word
  builtins : Builtin → Dim → Word

structure State where
  builtins : Builtin → Dim → Word
  calls : List Call

inductive Outcome
  | continued (arg : Word)
  | broken
  | returned

def Env.set (env : Env) (scope : Scope) (dim : Dim) (value : Word) : Env :=
  { env with
    counters := fun s d => if s = scope ∧ d = dim then value else env.counters s d }

def Expr.eval (env : Env) : Expr → Word
  | .literal value => value
  | .param scope dim => env.counters scope dim
  | .numWorkgroups dim => env.numWorkgroups dim
  | .subgroupLocalInvocationId => env.lane
  | .add left right => left.eval env + right.eval env
  | .mul left right => left.eval env * right.eval env

def State.store (state : State) (builtin : Builtin) (value : Dim → Word) : State :=
  { state with builtins := fun b => if b = builtin then value else state.builtins b }

def State.call (state : State) (callee : String) (args : List Word) : State :=
  { state with calls := state.calls ++ [⟨callee, args, state.builtins⟩] }

/-- One turn of a loop whose body ran. -/
def turnOf : Outcome × State → (Word × State) ⊕ (Outcome × State)
  | (.continued arg, state) => .inl (arg, state)
  | (.broken, state) => .inr (.broken, state)
  | (.returned, state) => .inr (.returned, state)

/-- A loop that was left by a break goes on behind it. -/
def afterLoop (rest : State → Option (Outcome × State)) : Outcome × State → Option (Outcome × State)
  | (.broken, state) => rest state
  | other => some other

/-- Every loop has `bound` turns at most. -/
def Code.exec (bound : Nat) : Code → Env → State → Option (Outcome × State)
  | .breakIfGte i max rest, env, state =>
      if max.eval env ≤ i.eval env then some (.broken, state) else rest.exec bound env state
  | .store builtin value rest, env, state =>
      rest.exec bound env (state.store builtin fun dim => (value dim).eval env)
  | .call callee args rest, env, state =>
      rest.exec bound env (state.call callee (args.map env.args))
  | .loop scope dim initialArg body rest, env, state =>
      (loopWhile (fun turn => (body.exec bound (env.set scope dim turn.1) turn.2).map turnOf) bound
        (initialArg.eval env, state)).bind (afterLoop (rest.exec bound env))
  | .mergeContinue arg, env, state => some (.continued (arg.eval env), state)
  | .fnRet, _, state => some (.returned, state)

/-- What the wrapper is launched with: the arguments, and the state that it finds. -/
structure Dispatch where
  numWorkgroups : Dim → Word
  args : Nat → Word
  builtins : Builtin → Dim → Word
  counters : Scope → Dim → Word

def Dispatch.env (dispatch : Dispatch) (lane : Word) : Env :=
  ⟨dispatch.counters, dispatch.numWorkgroups, dispatch.args, lane⟩

/-- The calls that all lanes of the subgroup make. -/
def launch (config : Config) (wrapper : Function Code) (dispatch : Dispatch) (bound : Nat) :
    Option (List Call) :=
  ((List.range config.subgroupSize.toNat).mapM fun lane =>
    (wrapper.body.exec bound (dispatch.env (BitVec.ofNat 32 lane)) ⟨dispatch.builtins, []⟩).map
      fun done => done.2.calls).map List.flatten

/-! ## What a launch is for -/

def Call.ids (call : Call) : (Dim → Word) × (Dim → Word) :=
  (call.builtins .workgroupId, call.builtins .localInvocationId)

/-- The pairs of WorkgroupId and LocalInvocationId. -/
def launchGrid (config : Config) (dispatch : Dispatch) : Set ((Dim → Word) × (Dim → Word)) :=
  { ids | ∀ dim, ids.1 dim < dispatch.numWorkgroups dim ∧ ids.2 dim < config.workgroupSize dim }

/-- Every invocation of the grid is run once by the kernel. -/
structure RunsOnce (config : Config) (dispatch : Dispatch) (kernel : String) (params : Nat)
    (calls : List Call) : Prop where
  once : (calls.map Call.ids).Nodup
  covers : ∀ ids, ids ∈ calls.map Call.ids ↔ ids ∈ launchGrid config dispatch
  calls_kernel : ∀ call ∈ calls,
    call.callee = kernel ∧ call.args = (List.range params).map dispatch.args
  global : ∀ call ∈ calls, ∀ dim, call.builtins .globalInvocationId dim =
    call.builtins .workgroupId dim * config.workgroupSize dim + call.builtins .localInvocationId dim

/-- The launch ends with these calls, whatever bound the loops have from some on. -/
def EndsWith (config : Config) (wrapper : Function Code) (dispatch : Dispatch) (calls : List Call) :
    Prop :=
  ∃ least, ∀ bound ≥ least, launch config wrapper dispatch bound = some calls

end Shady.Workgroups
