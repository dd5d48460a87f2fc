import Shady.Library.Fallible
import Shady.Ir.IrTypes

/-!
# Builtins of the expected types

Model of `src/shady/passes/normalize_builtins.c` and of the table of builtins in
`include/shady/ir/builtin.h`. The rewriter comes to the global variables and the loads of a module
in some order. Types are written the same in both modules; whether a value is uniform is left out.
-/

set_option autoImplicit false

namespace Shady.NormalizeBuiltins

open Fallible

/-! ## Builtins -/

inductive Builtin
  | baseInstance | baseVertex | deviceIndex | drawIndex | vertexIndex | fragCoord | fragDepth
  | instanceId | invocationId | instanceIndex | localInvocationId | localInvocationIndex
  | globalInvocationId | workgroupId | workgroupSize | numSubgroups | numWorkgroups | position
  | primitiveId | subgroupLocalInvocationId | subgroupId | subgroupSize
  deriving DecidableEq

def uint32Type : IrType := .int .intTy32 false
def u32vec3Type : IrType := .pack uint32Type 3
def fp32Type : IrType := .float .floatTy32
def f32vec4Type : IrType := .pack fp32Type 4

namespace Builtin

/-- `builtin_names` -/
def name : Builtin → String
  | baseInstance => "BaseInstance"
  | baseVertex => "BaseVertex"
  | deviceIndex => "DeviceIndex"
  | drawIndex => "DrawIndex"
  | vertexIndex => "VertexIndex"
  | fragCoord => "FragCoord"
  | fragDepth => "FragDepth"
  | instanceId => "InstanceId"
  | invocationId => "InvocationId"
  | instanceIndex => "InstanceIndex"
  | localInvocationId => "LocalInvocationId"
  | localInvocationIndex => "LocalInvocationIndex"
  | globalInvocationId => "GlobalInvocationId"
  | workgroupId => "WorkgroupId"
  | workgroupSize => "WorkgroupSize"
  | numSubgroups => "NumSubgroups"
  | numWorkgroups => "NumWorkgroups"
  | position => "Position"
  | primitiveId => "PrimitiveId"
  | subgroupLocalInvocationId => "SubgroupLocalInvocationId"
  | subgroupId => "SubgroupId"
  | subgroupSize => "SubgroupSize"

/-- `shd_get_builtin_address_space` -/
def addressSpace : Builtin → AddressSpace
  | fragDepth | position => .output
  | workgroupId | workgroupSize | numSubgroups | numWorkgroups | subgroupId => .uInput
  | _ => .input

/-- `shd_get_builtin_type` -/
def type : Builtin → IrType
  | fragCoord | position => f32vec4Type
  | fragDepth => fp32Type
  | localInvocationId | globalInvocationId | workgroupId | workgroupSize | numWorkgroups =>
      u32vec3Type
  | _ => uint32Type

def all : List Builtin :=
  [baseInstance, baseVertex, deviceIndex, drawIndex, vertexIndex, fragCoord, fragDepth, instanceId,
    invocationId, instanceIndex, localInvocationId, localInvocationIndex, globalInvocationId,
    workgroupId, workgroupSize, numSubgroups, numWorkgroups, position, primitiveId,
    subgroupLocalInvocationId, subgroupId, subgroupSize]

end Builtin

/-- `shd_get_builtin_by_name`; none stands for `BuiltinsCount`. -/
def getBuiltinByName (s : String) : Option Builtin := Builtin.all.find? (·.name = s)

/-! ## Modules -/

/-- A global variable, with the payload of its `Builtin` annotation. -/
structure GlobalVariable where
  name : String
  builtin : Option String
  type : IrType
  addressSpace : AddressSpace
  hasInit : Bool
  deriving DecidableEq

/-- A pointer: a chain of steps into what a declaration, or some other value, points to. -/
inductive Ptr
  | refDecl (decl : Nat)
  | ptrCompositeElement (ptr : Ptr) (index : Selector)
  | value (id : Nat) (pointedType : IrType)

/-- The type behind a pointer, with the types of the declarations. -/
def Ptr.pointee (declared : Nat → Except CheckError IrType) : Ptr → Except CheckError IrType
  | .refDecl decl => declared decl
  | .ptrCompositeElement ptr index => do
      let pointeeType ← ptr.pointee declared
      pointeeType.enterCompositeType index
  | .value _ pointedType => .ok pointedType

/-- What the rewriter comes to. -/
inductive Visit
  | declaration (decl : Nat)
  | load (ptr : Ptr)

abbrev Module : Type := List GlobalVariable

def Module.declared (module : Module) (decl : Nat) : Except CheckError IrType :=
  match module[decl]? with
  | some globalVariable => .ok globalVariable.type
  | none => .error (.assertion "No such declaration")

/-! ## The pass -/

/-- `builtins` of the context, the declarations that are registered, and the new module. -/
structure State where
  builtins : Builtin → Option Nat
  processed : Nat → Option Nat
  decls : Module

def State.empty : State := ⟨fun _ => none, fun _ => none, []⟩

def State.declare (s : State) (decl : Nat) (ndecl : GlobalVariable) : State where
  builtins := s.builtins
  processed := Function.update s.processed decl (some s.decls.length)
  decls := s.decls ++ [ndecl]

/-- The case of `GlobalVariable` in `process`, for a declaration that is not registered. -/
def processGlobalVariable (decl : Nat) (globalVariable : GlobalVariable) (s : State) :
    Except CheckError (Nat × State) :=
  match globalVariable.builtin with
  | some annotation =>
      match getBuiltinByName annotation with
      | none => .error (.assertion "b != BuiltinsCount")
      | some b =>
          match s.builtins b with
          | some ndecl => .ok (ndecl, s)
          | none => do
              ensure (!globalVariable.hasInit) "!global_variable.init"
              let s' := s.declare decl { globalVariable with type := b.type, addressSpace := b.addressSpace }
              return (s.decls.length, { s' with builtins := Function.update s.builtins b (some s.decls.length) })
  | none => .ok (s.decls.length, s.declare decl globalVariable)

/-- `shd_rewrite_node` of a declaration. -/
def rewriteDecl (module : Module) (decl : Nat) (s : State) : Except CheckError (Nat × State) :=
  match s.processed decl with
  | some ndecl => .ok (ndecl, s)
  | none =>
      match module[decl]? with
      | none => .error (.assertion "No such declaration")
      | some globalVariable => processGlobalVariable decl globalVariable s

/-- `shd_enter_composite_type` with `allow_entering_pack` off. -/
def enterNoPack (type : IrType) (index : Selector) : Except CheckError IrType :=
  match type with
  | .pack _ _ => .error (.assertion "allow_entering_pack")
  | type => type.enterCompositeType index

/-- `get_req_cast`: the actual type is that of the declaration after it has been rewritten. -/
def getReqCast (module : Module) : Ptr → State → Except CheckError (Option IrType × State)
  | .refDecl decl, s =>
      match (module[decl]?).bind GlobalVariable.builtin with
      | none => .ok (none, s)
      | some annotation =>
          match getBuiltinByName annotation with
          | none => .error (.assertion "b != BuiltinsCount")
          | some b => do
              let (ndecl, s) ← rewriteDecl module decl s
              let actualType ← s.decls.declared ndecl
              if b.type ≠ actualType then return (some actualType, s) else return (none, s)
  | .ptrCompositeElement ptr index, s => do
      let (srcReqCast, s) ← getReqCast module ptr s
      match srcReqCast with
      | none => .ok (none, s)
      | some srcReqCast => do
          let (_, srcReqCast) ← srcReqCast.deconstructQualifiedType
          let element ← enterNoPack srcReqCast index
          return (some element, s)
  | .value _ _, s => .ok (none, s)

/-- The type that the rewritten pointer points to. -/
def rewritePtr (module : Module) : Ptr → State → Except CheckError (IrType × State)
  | .refDecl decl, s => do
      let (ndecl, s) ← rewriteDecl module decl s
      let type ← s.decls.declared ndecl
      return (type, s)
  | .ptrCompositeElement ptr index, s => do
      let (pointeeType, s) ← rewritePtr module ptr s
      let element ← pointeeType.enterCompositeType index
      return (element, s)
  | .value _ pointedType, s => .ok (pointedType, s)

/-- The case of `Load` in `process`; the result is the type of what stands for the load. -/
def processLoad (config : TypesConfig) (module : Module) (ptr : Ptr) (s : State) :
    Except CheckError (IrType × State) := do
  let (reqCast, s) ← getReqCast module ptr s
  match reqCast with
  | none => rewritePtr module ptr s
  | some reqCast => do
      ensure reqCast.isDataType "shd_is_data_type(req_cast)"
      let (loaded, s) ← rewritePtr module ptr s
      let legal ← loaded.isReinterpretCastLegal config reqCast
      ensure legal "shd_is_reinterpret_cast_legal(src_type, dst_type)"
      return (reqCast, s)

/-- The rewritten module, and the type of each load in the order of the visits. -/
def rewriteModule (config : TypesConfig) (module : Module) :
    List Visit → State → Except CheckError (List IrType × State)
  | [], s => .ok ([], s)
  | .declaration decl :: rest, s => do
      let (_, s) ← rewriteDecl module decl s
      rewriteModule config module rest s
  | .load ptr :: rest, s => do
      let (type, s) ← processLoad config module ptr s
      let (types, s) ← rewriteModule config module rest s
      return (type :: types, s)

/-! ## What the pass is for -/

/-- The types of the loads among the visits. -/
def loadTypes (declared : Nat → Except CheckError IrType) : List Visit → Except CheckError (List IrType)
  | [] => .ok []
  | .declaration _ :: rest => loadTypes declared rest
  | .load ptr :: rest => do
      let type ← ptr.pointee declared
      let types ← loadTypes declared rest
      return type :: types

/-- All declarations of a builtin that are visited stand for one global, which has its type. -/
structure Merged (module : Module) (visits : List Visit) (s : State) : Prop where
  merged : ∀ decl globalVariable b, .declaration decl ∈ visits → module[decl]? = some globalVariable →
    globalVariable.builtin.bind getBuiltinByName = some b →
      ∃ ndecl new, s.builtins b = some ndecl ∧ rewriteDecl module decl s = .ok (ndecl, s) ∧
        s.decls[ndecl]? = some new ∧ new.type = b.type ∧ new.addressSpace = b.addressSpace
  unique : ∀ b ndecl new, s.decls[ndecl]? = some new →
    new.builtin.bind getBuiltinByName = some b → s.builtins b = some ndecl

/-- Every load keeps its type, and every builtin is one global of its type. -/
def PreservesTypes (config : TypesConfig) (module : Module) (visits : List Visit) : Prop :=
  ∃ types s, rewriteModule config module visits State.empty = .ok (types, s) ∧
    loadTypes module.declared visits = .ok types ∧ Merged module visits s

/-- What the module promises: visits are to declarations that there are, builtins are known and
have no initial value, and the loads are well typed. -/
structure WellFormed (module : Module) (visits : List Visit) : Prop where
  declared : ∀ decl, .declaration decl ∈ visits → decl < module.length
  builtins : ∀ globalVariable ∈ module, ∀ annotation, globalVariable.builtin = some annotation →
    (getBuiltinByName annotation).isSome ∧ globalVariable.hasInit = false
  loads : ∀ ptr, .load ptr ∈ visits → ∃ type, ptr.pointee module.declared = .ok type

/-- The types of the declarations, those of builtins as they are expected. -/
def expectedTypes (module : Module) (decl : Nat) : Except CheckError IrType :=
  match module[decl]? with
  | some globalVariable =>
      .ok ((globalVariable.builtin.bind getBuiltinByName).elim globalVariable.type Builtin.type)
  | none => .error (.assertion "No such declaration")

end Shady.NormalizeBuiltins
