import Mathlib.Data.List.Dedup
import Shady.FoldPtr

/-!
# Demotion of allocations

Model of `src/shady/passes/opt_demote_alloca.c`. An allocation whose address does not leak
becomes undefined if it is not read from, and a local allocation if only plain accesses use it;
accesses through casts of its address then use its own type. Memory operands are the order of
the instructions in their block, and the nodes of a function carry their types.
-/

set_option autoImplicit false

namespace Shady.DemoteAlloca

inductive AllocKind
  | stackAlloc
  | localAlloc
  deriving DecidableEq

/-- The operators that an address can go through, and the one with side effects; all others
compute with numbers. -/
inductive Op
  | convert
  | reinterpret
  | select
  | extract
  | extractDynamic
  | insert
  | shuffle
  | subgroupAssumeUniform
  | sampleTexture
  | computation (op : Nat)
  deriving DecidableEq

/-- `shd_has_primop_got_side_effects` -/
def Op.hasSideEffects : Op → Bool
  | .sampleTexture => true
  | _ => false

structure Alloc where
  kind : AllocKind
  id : Nat
  type : IrType
  deriving DecidableEq

mutual
inductive IrValue
  /-- A parameter, a constant, or what an instruction other than an allocation gives. -/
  | source (id : Nat) (type : IrType)
  | allocation (alloc : Alloc)
  | primOp (op : Op) (typeArguments : List IrType) (operands : IrValues) (type : IrType)
  | composite (contents : IrValues) (type : IrType)
  | ptrCompositeElement (ptr index : IrValue) (type : IrType)
  | ptrArrayElementOffset (ptr offset : IrValue) (type : IrType)
  deriving DecidableEq
inductive IrValues
  | nil
  | cons (head : IrValue) (tail : IrValues)
  deriving DecidableEq
end

inductive Instr
  | alloc (alloc : Alloc)
  | load (id : Nat) (ptr : IrValue)
  | store (ptr value : IrValue)
  /-- Calls, copies of bytes, extended instructions and the like. -/
  | other (id : Nat) (operands : List IrValue)
  deriving DecidableEq

/-- A block that a terminator may go on to, with what it passes there. -/
structure Transfer where
  target : Nat
  args : List IrValue

structure Block where
  params : List Nat
  instrs : List Instr
  /-- The operands of the terminator that it does not pass on: a condition, or what it returns. -/
  operands : List IrValue
  transfers : List Transfer

/-! ## Values and their uses -/

namespace AllocKind

def space : AllocKind → AddressSpace
  | .stackAlloc => .priv
  | .localAlloc => .function

def isReference : AllocKind → Bool
  | .stackAlloc => false
  | .localAlloc => true

end AllocKind

/-- `_shd_check_type_stack_alloc` and `_shd_check_type_local_alloc` -/
def Alloc.ptrType (config : TypesConfig) (alloc : Alloc) : IrType :=
  .qualified (config.isAddrSpaceUniform alloc.kind.space) (.ptr alloc.type alloc.kind.space alloc.kind.isReference)

def IrValues.toList : IrValues → List IrValue
  | .nil => []
  | .cons head tail => head :: tail.toList

namespace IrValue

def type (config : TypesConfig) : IrValue → IrType
  | .source _ type => type
  | .allocation alloc => alloc.ptrType config
  | .primOp _ _ _ type => type
  | .composite _ type => type
  | .ptrCompositeElement _ _ type => type
  | .ptrArrayElementOffset _ _ type => type

def operands : IrValue → List IrValue
  | .source _ _ => []
  | .allocation _ => []
  | .primOp _ _ operands _ => operands.toList
  | .composite contents _ => contents.toList
  | .ptrCompositeElement ptr index _ => [ptr, index]
  | .ptrArrayElementOffset ptr offset _ => [ptr, offset]

end IrValue

mutual
/-- A value and all that it is computed from. -/
def IrValue.parts : IrValue → List IrValue
  | .source id type => [.source id type]
  | .allocation alloc => [.allocation alloc]
  | .primOp op typeArguments operands type => .primOp op typeArguments operands type :: operands.parts
  | .composite contents type => .composite contents type :: contents.parts
  | .ptrCompositeElement ptr index type => .ptrCompositeElement ptr index type :: (ptr.parts ++ index.parts)
  | .ptrArrayElementOffset ptr offset type => .ptrArrayElementOffset ptr offset type :: (ptr.parts ++ offset.parts)

def IrValues.parts : IrValues → List IrValue
  | .nil => []
  | .cons head tail => head.parts ++ tail.parts
end

def Instr.operands : Instr → List IrValue
  | .alloc _ => []
  | .load _ ptr => [ptr]
  | .store ptr value => [ptr, value]
  | .other _ operands => operands

/-- What the terminator of a block uses. -/
def Block.terminatorOperands (block : Block) : List IrValue :=
  block.operands ++ block.transfers.flatMap Transfer.args

/-- A function, by its blocks; it starts in the first one. -/
structure FunctionBody where
  blocks : List Block

inductive Use
  | value (user : IrValue)
  | instr (user : Instr)
  | terminator

namespace FunctionBody
variable (f : FunctionBody)

def instrs : List Instr := f.blocks.flatMap Block.instrs

def values : List IrValue :=
  ((f.instrs.flatMap Instr.operands ++ f.blocks.flatMap Block.terminatorOperands).flatMap IrValue.parts).dedup

/-- The uses of a value, but for those as memory operands and parameters. -/
def usesOf (v : IrValue) : List Use :=
  (f.values.filter fun user => v ∈ user.operands).map .value ++
    (f.instrs.filter fun user => v ∈ user.operands).map .instr ++
    (f.blocks.filter fun block => v ∈ block.terminatorOperands).map fun _ => .terminator

end FunctionBody

/-! ## The analysis of the uses -/

structure AllocaInfo where
  leaks : Bool
  readFrom : Bool
  nonLogicalUse : Bool
  deriving DecidableEq

def IrType.isPtr : IrType → Bool
  | .ptr _ _ _ => true
  | _ => false

section Pass
variable (config : TypesConfig) (f : FunctionBody)

/-- One turn of the loop of `visit_ptr_uses`, which visits the uses of a cast in turn. -/
def visitUse (visitPtrUses : IrValue → AllocaInfo → Except CheckError AllocaInfo) (ptrValue : IrValue)
    (k : AllocaInfo) : Use → Except CheckError AllocaInfo
  | .instr (.load _ _) => .ok { k with readFrom := true }
  | .instr (.store _ value) => .ok (if ptrValue = value then { k with leaks := true } else k)
  | .value (.primOp op typeArguments operands type) =>
      let user := IrValue.primOp op typeArguments operands type
      match op with
      | .reinterpret => visitPtrUses user { k with nonLogicalUse := true }
      | .convert =>
          match typeArguments with
          | [] => .error (.assertion "shd_first reads past the end")
          | dst :: _ =>
              if IrType.isPtr dst then visitPtrUses user { k with nonLogicalUse := true }
              else .ok { k with leaks := true }
      | op => .ok (if op.hasSideEffects then { k with leaks := true } else k)
  | _ => .ok { k with leaks := true }

/-- The first argument bounds how deep casts are nested. -/
def visitPtrUses : Nat → IrValue → AllocaInfo → Except CheckError AllocaInfo
  | 0, _, _ => .error .outOfFuel
  | fuel + 1, ptrValue, k => do
      let (_, ptrType) ← (ptrValue.type config).deconstructQualifiedType
      ensure (IrType.isPtr ptrType) "ptr_type->tag == PtrType_TAG"
      (f.usesOf ptrValue).foldlM (visitUse (visitPtrUses fuel) ptrValue) k

/-- The analysis of `handle_alloc`; a chain of casts has no value twice. -/
def allocaInfo (alloc : Alloc) : Except CheckError AllocaInfo :=
  visitPtrUses config f (f.values.length + 1) (.allocation alloc) ⟨false, false, false⟩

/-- What an allocation becomes. -/
inductive Replacement
  | undef
  | localAlloc
  /-- `shd_recreate_node` -/
  | recreated
  deriving DecidableEq

variable (weakenNonLeakingAllocas : Bool)

def handleAlloc (alloc : Alloc) : Except CheckError Replacement := do
  let k ← allocaInfo config f alloc
  if !k.leaks && !k.readFrom then return .undef
  else if !k.leaks && !k.nonLogicalUse && weakenNonLeakingAllocas then return .localAlloc
  else return .recreated

/-! ## The accesses -/

/-- `get_ptr_source_knowledge` -/
def getPtrSourceKnowledge : IrValue → Option Alloc
  | .allocation alloc => some alloc
  | .primOp .convert _ (.cons operand _) _ => getPtrSourceKnowledge operand
  | .primOp .reinterpret _ (.cons operand _) _ => getPtrSourceKnowledge operand
  | _ => none

/-- The type of the node that replaces an allocation. -/
def Replacement.type (alloc : Alloc) : Replacement → IrType
  | .undef => .qualified true (.ptr alloc.type alloc.kind.space alloc.kind.isReference)
  | .localAlloc => Alloc.ptrType config { alloc with kind := .localAlloc }
  | .recreated => alloc.ptrType config

/-- The casts are recreated around the new node, and the folder drops those to the type that
their operand has. The node that stands for an undefined allocation is not itself an operand. -/
def rewritesToAlloc (alloc : Alloc) (new : Replacement) : IrValue → Bool
  | .allocation other => decide (other = alloc)
  | .primOp .convert (dst :: _) (.cons operand _) _ => castVanishes dst operand
  | .primOp .reinterpret (dst :: _) (.cons operand _) _ => castVanishes dst operand
  | _ => false
where
  castVanishes (dst : IrType) (operand : IrValue) : Bool :=
    decide (new ≠ .undef) && rewritesToAlloc alloc new operand &&
      (new.type config alloc).deconstructQualifiedType.toOption.any fun type => decide (type.2 = dst)

/-- An access that uses the new node in place of its pointer. -/
structure RewrittenAccess where
  alloc : Alloc
  new : Replacement
  accessType : IrType

/-- What the cases of `process` for `Load_TAG` and `Store_TAG` begin with; none where the access
is recreated. -/
def rewrittenAccess (ptr : IrValue) : Except CheckError (Option RewrittenAccess) :=
  match getPtrSourceKnowledge ptr with
  | none => .ok none
  | some alloc => do
      let new ← handleAlloc config f weakenNonLeakingAllocas alloc
      let (_, accessType, _, _) ← deconstructPtr (ptr.type config)
      if ← accessType.isReinterpretCastLegal config alloc.type then
        if rewritesToAlloc config alloc new ptr then return none else return some ⟨alloc, new, accessType⟩
      else return none

/-- The new load and the cast of what it gives; their types are those of the checks. -/
def createLoad (access : RewrittenAccess) : Except CheckError IrType := do
  let dataType ← checkLoad config (access.new.type config access.alloc)
  checkCast config (IrType.isReinterpretCastLegal config) access.accessType dataType

/-- The cast of the value and the new store of it. -/
def createStore (access : RewrittenAccess) (value : IrValue) : Except CheckError IrType := do
  let dataType ← checkCast config (IrType.isReinterpretCastLegal config) access.accessType (value.type config)
  checkStore config (access.new.type config access.alloc) dataType

end Pass

end Shady.DemoteAlloca
