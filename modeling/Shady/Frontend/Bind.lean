import Shady.Library.Scope
import Shady.Library.Stateful

/-!
# Binding of names

Model of `src/frontend/slim/bind.c`, over the modules that `src/frontend/slim/parser.c` builds: the
instructions of an expression are given as the tree that they come from, and the `mem` chain of a
body as the order of its statements. Nodes are named by where they are made.
-/

set_option autoImplicit false

namespace Shady.Bind

open Scoping Stateful

abbrev Name := String

/-! ## Modules before the pass -/

inductive Expr
  /-- A literal, or a type without operands. -/
  | leaf (text : String)
  /-- What a structured construct yields: a parameter of its tail, which has no name. -/
  | param (site i : Nat)
  /-- `SlimUnbound`; names in types, annotations and constants have no `mem`. -/
  | unbound (hasMem : Bool) (name : Name)
  /-- `SlimDereference` -/
  | dereference (ptr : Expr)
  /-- `SlimAddrOf` -/
  | addrOf (place : Expr)
  /-- `SlimAssign` -/
  | assign (target value : Expr)
  /-- `SlimSubscript` -/
  | subscript (base index : Expr)
  /-- Every other node; only one with a `mem` is kept if its value is not used. -/
  | node (hasMem : Bool) (tag : String) (operands : List Expr)

structure Param where
  name : Option Name
  type : Expr

mutual
inductive Body
  | eval (e : Expr) (rest : Body)
  /-- `SlimBindVal` -/
  | bindVal (site : Nat) (value : Expr) (names : List Name) (rest : Body)
  /-- `SlimBindVar` -/
  | bindVar (site : Nat) (value : Expr) (names : List Name) (types : List Expr) (rest : Body)
  /-- `If`, `Match`, `Loop` or `Control`, with the block of the rest of the body. -/
  | construct (tag : String) (operands : List Expr) (blocks : List Block) (tail : Block)
  /-- `SlimBindContinuations`, then the terminator in a block of its own. -/
  | finish (continuations : List Block) (terminator : Expr)

inductive Block
  | mk (site : Nat) (name : Option Name) (params : List Param) (body : Body)
end

def Block.site : Block → Nat
  | .mk site _ _ _ => site

def Block.name : Block → Option Name
  | .mk _ name _ _ => name

def Block.params : Block → List Param
  | .mk _ _ params _ => params

inductive DeclKind
  | globalVariable (type : Expr) (init : Option Expr)
  | constant (typeHint : Option Expr) (value : Expr)
  | function (site : Nat) (params : List Param) (returnTypes : List Expr) (body : Option Body)
  | nominalType (body : Expr)

structure Decl where
  name : Name
  annotations : List Expr
  kind : DeclKind

abbrev Module := List Decl

/-- `shd_lookup_annotation` -/
def Decl.lookupAnnotation (decl : Decl) (name : Name) : Bool :=
  decl.annotations.any fun annotation =>
    match annotation with
    | .node _ tag _ => tag == name
    | _ => false

/-! ## Modules after the pass -/

/-- The node that a name is bound to. -/
inductive NodeRef
  | declaration (i : Nat)
  | param (site i : Nat)
  /-- The `i`-th result of the value of a declaration. -/
  | result (site i : Nat)
  /-- The `stack_alloc` of the `i`-th variable of a declaration. -/
  | slot (site i : Nat)
  | basicBlock (site : Nat)
  deriving DecidableEq

structure Resolved where
  isVar : Bool
  node : NodeRef
  deriving DecidableEq

/-- An expression with, beside each occurrence of a name, what it is resolved to. -/
inductive BoundExpr
  | leaf (text : String)
  | param (site i : Nat)
  /-- The node itself, or what is loaded from it if it is a variable. -/
  | value (hasMem : Bool) (name : Name) (resolved : Resolved)
  | address (name : Name) (resolved : Resolved)
  | load (ptr : BoundExpr)
  | store (ptr value : BoundExpr)
  /-- `PtrCompositeElement` -/
  | element (ptr index : BoundExpr)
  | extract (base index : BoundExpr)
  | node (tag : String) (operands : List BoundExpr)

/-- The `stack_alloc` of a variable, and the result that is stored in it. -/
structure Slot where
  name : Name
  type : BoundExpr
  stored : Nat

mutual
inductive BoundBody
  | eval (effects : List BoundExpr) (rest : BoundBody)
  | values (site : Nat) (value : BoundExpr) (rest : BoundBody)
  | variables (site : Nat) (value : BoundExpr) (slots : List Slot) (rest : BoundBody)
  | construct (tag : String) (operands : List BoundExpr) (blocks : List BoundBlock)
      (tail : BoundBlock)
  | finish (continuations : List BoundBlock) (terminator : BoundExpr)

inductive BoundBlock
  | mk (site : Nat) (paramTypes : List BoundExpr) (body : BoundBody)
end

inductive BoundContent
  | value (v : Option BoundExpr)
  | body (b : Option BoundBody)

structure BoundDecl where
  /-- Its types and annotations. -/
  signature : List BoundExpr
  content : BoundContent

/-! ## The pass -/

inductive BindError
  | couldNotResolve (name : Name)
  | notAPlace
  | processedTwice
  | assertion (text : String)
  | depth

structure State where
  /-- `map` of the rewriter, for the names without a `mem`: such a node is made once in an arena. -/
  processed : List (Name × Resolved)
  /-- The declarations of the new module, which are also those in `decls_map`. -/
  newDecls : List Nat
  /-- The new declarations that have their contents. -/
  defined : List (Nat × BoundDecl)

abbrev M := Prog State BindError

/-- `local_variables` -/
abbrev Env := List (Name × Resolved)

def fail {α : Type} (e : BindError) : M α := throw e

/-- `shd_register_processed` -/
def registerProcessed (name : Name) (resolved : Resolved) : M Unit := do
  match (← get).processed.lookup name with
  | some found => if found = resolved then return () else fail .processedTwice
  | none => modify fun st => { st with processed := (name, resolved) :: st.processed }

section Expressions

-- `top` is the part of `resolve_using_name` that looks among the declarations.
variable (top : Name → M Resolved) (env : Env)

def resolveUsingName (name : Name) : M Resolved :=
  match env.find? (fun entry => entry.1 = name) with
  | some entry => return entry.2
  | none => top name

/-- The case of `SlimUnbound` where the value is used. -/
def bindUnbound (hasMem : Bool) (name : Name) : M BoundExpr := do
  if hasMem then return .value true name (← resolveUsingName top env name)
  match (← get).processed.lookup name with
  | some found => return .value false name found
  | none =>
      let resolved ← resolveUsingName top env name
      registerProcessed name resolved
      return .value false name resolved

mutual
/-- `bind_node`, for a node whose value is used. -/
def bindValue : Expr → M BoundExpr
  | .leaf text => return .leaf text
  | .param site i => return .param site i
  | .unbound hasMem name => bindUnbound top env hasMem name
  | .dereference ptr => return .load (← bindValue ptr)
  | .addrOf place => do
      match ← getNodeAddressMaybe place with
      | some ptr => return ptr
      | none => fail .notAPlace
  | .assign target value => do
      match ← getNodeAddressMaybe target with
      | some ptr => return .store ptr (← bindValue value)
      | none => fail .notAPlace
  | .subscript base index => do
      match ← getNodeAddressMaybe base with
      | some ptr => return .load (.element ptr (← bindValue index))
      | none =>
          let base ← bindValue base
          return .extract base (← bindValue index)
  | .node _ tag operands => return .node tag (← bindValues operands)

/-- `get_node_address_maybe` -/
def getNodeAddressMaybe : Expr → M (Option BoundExpr)
  | .unbound _ name => do
      let entry ← resolveUsingName top env name
      return if entry.isVar then some (.address name entry) else none
  | .dereference ptr => return some (← bindValue ptr)
  | .subscript base index => do
      match ← getNodeAddressMaybe base with
      | some ptr => return some (.element ptr (← bindValue index))
      | none => return none
  | _ => return none

/-- `shd_rewrite_nodes` -/
def bindValues : List Expr → M (List BoundExpr)
  | [] => return []
  | e :: rest => do
      let e ← bindValue e
      return e :: (← bindValues rest)
end

mutual
/-- What is left of an expression whose value is not used (`is_used_as_value`). -/
def bindDiscarded : Expr → M (List BoundExpr)
  | .leaf _ => return []
  | .param _ _ => return []
  | .unbound _ _ => return []
  | .dereference ptr => return [← bindValue top env ptr]
  | .addrOf place => return [← bindValue top env (.addrOf place)]
  | .assign target value => return [← bindValue top env (.assign target value)]
  | .subscript base index => return [← bindValue top env (.subscript base index)]
  | .node true tag operands => return [← bindValue top env (.node true tag operands)]
  | .node false _ operands => bindDiscardedAll operands

def bindDiscardedAll : List Expr → M (List BoundExpr)
  | [] => return []
  | e :: rest => do
      let e ← bindDiscarded e
      return e ++ (← bindDiscardedAll rest)
end

end Expressions

/-! ### Bodies -/

/-- The names of parameters, the first one bound first. -/
def paramBindings (site : Nat) (params : List Param) : List (Name × Resolved) :=
  (params.zipIdx.filterMap fun (param, i) =>
    param.name.map fun name => (name, ⟨false, .param site i⟩))

def blockBindings (block : Block) : List (Name × Resolved) :=
  match block.name with
  | some name => (name, ⟨false, .basicBlock block.site⟩) :: paramBindings block.site block.params
  | none => paramBindings block.site block.params

def valBindings (site : Nat) (names : List Name) : List (Name × Resolved) :=
  names.zipIdx.map fun (name, i) => (name, ⟨false, .result site i⟩)

section Bodies

variable (top : Name → M Resolved)

/-- `shd_recreate_params` -/
def recreateParams (env : Env) (params : List Param) : M (List BoundExpr) :=
  bindValues top env (params.map Param.type)

/-- The loop of the case of `SlimBindVar`, from variable `i` on. -/
def bindVariables (site : Nat) : Env → Nat → List (Name × Expr) → M (List Slot × Env)
  | env, _, [] => return ([], env)
  | env, i, (name, type) :: rest => do
      let type ← bindValue top env type
      -- every variable is given `results.nodes[0]`
      let slot : Slot := ⟨name, type, 0⟩
      let (slots, env) ← bindVariables site ((name, ⟨true, .slot site i⟩) :: env) (i + 1) rest
      return (slot :: slots, env)

/-- The first loop of the case of `SlimBindContinuations`. -/
def bindContinuationNames : Env → List Block → M (List (List BoundExpr) × Env)
  | env, [] => return ([], env)
  | env, block :: rest => do
      let types ← recreateParams top env block.params
      match block.name with
      | none => fail (.assertion "name")
      | some name =>
          let env := (name, (⟨false, .basicBlock block.site⟩ : Resolved)) :: env
          let (types', env) ← bindContinuationNames env rest
          return (types :: types', env)

mutual
def bindBody (env : Env) : Body → M BoundBody
  | .eval e rest => do
      let effects ← bindDiscarded top env e
      return .eval effects (← bindBody env rest)
  | .bindVal site value names rest => do
      let value ← bindValue top env value
      return .values site value (← bindBody (push env (valBindings site names)) rest)
  | .bindVar site value names types rest => do
      let value ← bindValue top env value
      let (slots, env) ← bindVariables top site env 0 (names.zip types)
      return .variables site value slots (← bindBody env rest)
  | .construct tag operands blocks tail => do
      let operands ← bindValues top env operands
      let blocks ← bindBlocks env blocks
      return .construct tag operands blocks (← bindBlock env tail)
  | .finish continuations terminator => do
      let (types, env) ← bindContinuationNames top env continuations
      let continuations ← bindContinuations env types continuations
      return .finish continuations (← bindValue top env terminator)

/-- The case of `BasicBlock`; its declarations go with the copy of the context. -/
def bindBlock (env : Env) : Block → M BoundBlock
  | .mk site name params body => do
      let types ← recreateParams top env params
      return .mk site types (← bindBody (push env (blockBindings (.mk site name params body))) body)

def bindBlocks (env : Env) : List Block → M (List BoundBlock)
  | [] => return []
  | block :: rest => do
      let block ← bindBlock env block
      return block :: (← bindBlocks env rest)

/-- The second loop of the case of `SlimBindContinuations`. -/
def bindContinuations (env : Env) : List (List BoundExpr) → List Block → M (List BoundBlock)
  | types :: types', .mk site _ params body :: rest => do
      let body ← bindBody (push env (paramBindings site params)) body
      return .mk site types body :: (← bindContinuations env types' rest)
  | _, _ => return []
end

end Bodies

/-! ### Declarations -/

def Decl.isVar (decl : Decl) : Bool :=
  match decl.kind with
  | .globalVariable _ _ => true
  | _ => false

/-- What is rewritten before the new declaration is made, in the order of the rewriting. -/
def Decl.signature (decl : Decl) : List Expr :=
  match decl.kind with
  | .globalVariable type _ => decl.annotations ++ [type]
  | .constant typeHint _ => decl.annotations ++ typeHint.toList
  | .function _ params returnTypes _ => params.map Param.type ++ decl.annotations ++ returnTypes
  | .nominalType _ => decl.annotations

/-- `shd_register_processed`, for a declaration that has just been added to the new module. -/
def registerDecl (i : Nat) : M Unit := do
  if i ∈ (← get).newDecls then fail .processedTwice
  else modify fun st => { st with newDecls := st.newDecls ++ [i] }

def defineDecl (i : Nat) (decl : BoundDecl) : M Unit :=
  modify fun st => { st with defined := st.defined ++ [(i, decl)] }

section Declarations

variable (top : Name → M Resolved)

def bindOptional : Option Expr → M (Option BoundExpr)
  | none => return none
  | some e => return some (← bindValue top [] e)

/-- What is rewritten after that. -/
def bindContent : DeclKind → M BoundContent
  | .globalVariable _ init => return .value (← bindOptional top init)
  | .constant _ value => return .value (some (← bindValue top [] value))
  | .nominalType body => return .value (some (← bindValue top [] body))
  | .function _ _ _ none => return .body none
  | .function site params _ (some body) =>
      return .body (some (← bindBody top (push [] (paramBindings site params)) body))

/-- `rewrite_decl`, in a context without local variables. -/
def rewriteDecl (i : Nat) (decl : Decl) : M Unit := do
  let signature ← bindValues top [] decl.signature
  registerDecl i
  let content ← bindContent top decl.kind
  defineDecl i ⟨signature, content⟩

end Declarations

def resolvedDecl (decl : Decl) (i : Nat) : Resolved := ⟨decl.isVar, .declaration i⟩

/-- Whether declaration `i` has the name. -/
def Module.named (m : Module) (name : Name) (i : Nat) : Bool := m[i]?.any (·.name == name)

/-- The declaration of a name: first among the new declarations, then among the old ones. -/
def findDecl (m : Module) (declare : Nat → M Unit) (name : Name) : M Nat := do
  match (← get).newDecls.find? (m.named name) with
  | some i => return i
  | none =>
      match m.findIdx? (·.name == name) with
      | some i => do
          declare i
          return i
      | none => fail (.couldNotResolve name)

/-- The rest of `resolve_using_name`. -/
def resolveTop (m : Module) (declare : Nat → M Unit) (name : Name) : M Resolved := do
  let i ← findDecl m declare name
  match m[i]? with
  | some decl => return resolvedDecl decl i
  | none => fail (.couldNotResolve name)

/-- `shd_rewrite_node` of a declaration. Nested more often than there are declarations, one of them
would be inside of itself, and would be processed twice if the nesting ended at all. -/
def bindDecl (m : Module) : Nat → Nat → M Unit
  | 0, _ => fail .depth
  | fuel + 1, i => do
      if i ∈ (← get).newDecls then return ()
      match m[i]? with
      | some decl => rewriteDecl (resolveTop m (bindDecl m fuel)) i decl
      | none => fail (.assertion "is_declaration(node)")

def Module.exported (m : Module) : List Nat :=
  (List.range m.length).filter fun i => m[i]?.any fun decl => Decl.lookupAnnotation decl "Exported"

/-- `shd_rewrite_module` -/
def rewriteModule (m : Module) : M Unit := m.exported.forM (bindDecl m (m.length + 1))

def State.initial : State := ⟨[], [], []⟩

/-- `slim_pass_bind` -/
def slimPassBind (m : Module) : Except BindError State := do
  let (_, st) ← (rewriteModule m).run .initial
  return st

end Shady.Bind
