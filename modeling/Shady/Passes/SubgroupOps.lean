import Shady.Ir.IrTypes

/-!
# Broadcasts of any type

Model of `src/shady/passes/lower_subgroup_ops.c`, which makes a broadcast of the first active
lane's value out of broadcasts of 32-bit integers, and of the integer conversions of
`src/shady/ir/int.c` that it uses. Functions are made for types and found again by them, so a call
names the type. No rule looks behind a pointer: a nominal type that stands there may stand with
any body, and a nominal type that contains itself does so behind a pointer. Uniformity is left out.
-/

set_option autoImplicit false

namespace Shady.SubgroupOps

/-! ## Expressions -/

mutual
inductive Expr
  /-- The parameter of the function, or the operand of the instruction. -/
  | param
  | intLiteral (literal : IntLiteral)
  | extract (src : Expr) (index : Nat)
  | composite (contents : Exprs)
  | reinterpret (src : Expr)
  | convert (srcType dstType : IntType) (src : Expr)
  | rshiftLogical (value shift : Expr)
  | lshift (value shift : Expr)
  | or (lhs rhs : Expr)
  /-- `SpvOpGroupNonUniformBroadcastFirst` -/
  | broadcastFirst (scope : Nat) (src : Expr)
  | call (fn : IrType) (arg : Expr)
inductive Exprs
  | nil
  | cons (head : Expr) (tail : Exprs)
end

/-- A node and its `type` field. -/
structure Typed where
  expr : Expr
  type : IrType

structure Config where
  types : TypesConfig
  emulateSubgroupOpsExtendedTypes : Bool

def int32Type : IrType := .int .intTy32 true
def uint64Type : IrType := .int .intTy64 false

/-! ## Nodes and their checks -/

def int32Literal (value : BitVec 32) : Typed :=
  ⟨.intLiteral ⟨.intTy32, true, value.setWidth 64⟩, int32Type⟩

/-- The index of `shd_extract_helper` is a `uint32_t`. -/
def extractHelper (base : Typed) (i : Nat) : Except CheckError Typed := do
  let index := BitVec.ofNat 32 i
  let type ← base.type.enterCompositeType (.literal ⟨.intTy32, false, index.setWidth 64⟩)
  return ⟨.extract base.expr index.toNat, type⟩

/-- `LARRAY` of pointers: no stack holds 2^32 of them. -/
def stackArray (count : Nat) : Except CheckError Unit :=
  if count < 2 ^ 32 then .ok () else .error (.died "Stack overflow")

/-- `shd_get_composite_type_element_types` -/
def getCompositeTypeElementTypes : IrType → Except CheckError (List IrType)
  | .typeDeclRef _ (.record members _) => .ok members.toList
  | .typeDeclRef _ _ => .error (.assertion "type->tag == RecordType_TAG")
  | .record members _ => .ok members.toList
  | .arr elementType (some size) => do
      stackArray (getIntLiteralValue size false).toNat
      return List.replicate (getIntLiteralValue size false).toNat elementType
  | .arr _ none => .error (.assertion "A literal is read through NULL")
  | .pack elementType width => do
      stackArray width
      return List.replicate width elementType
  | _ => .error (.died "Not a composite type !")

def Exprs.ofList : List Expr → Exprs
  | [] => .nil
  | head :: tail => .cons head (Exprs.ofList tail)

/-- `_shd_check_type_composite` -/
def compositeHelper (type : IrType) (elements : List Typed) : Except CheckError Typed := do
  ensure type.isDataType "shd_is_data_type(composite.type)"
  let expected ← getCompositeTypeElementTypes type
  ensure (decide (elements.length = expected.length))
    "composite.contents.count == expected_member_types.count"
  ensure ((expected.zip elements).all fun pair => pair.1.isSubtype pair.2.type)
    "shd_is_subtype(expected_member_types.nodes[i], element_type)"
  return ⟨.composite (Exprs.ofList (elements.map Typed.expr)), type⟩

def reinterpret (config : Config) (dst : IrType) (src : Typed) : Except CheckError Typed := do
  ensure dst.isDataType "shd_is_data_type(dst_type)"
  let legal ← src.type.isReinterpretCastLegal config.types dst
  ensure legal "shd_is_reinterpret_cast_legal(src_type, dst_type)"
  return ⟨.reinterpret src.expr, dst⟩

/-- A conversion between integers, as the pass makes them. -/
def convert (config : Config) (dst : IntType) (src : Typed) : Except CheckError Typed := do
  let dstType : IrType := .int dst.width dst.isSigned
  let legal ← src.type.isConversionLegal config.types dstType
  ensure legal "shd_is_conversion_legal(src_type, dst_type)"
  match src.type with
  | .int width isSigned => return ⟨.convert ⟨width, isSigned⟩ dst src.expr, dstType⟩
  | _ => .error (.assertion "src_type->tag == Int_TAG")

def isInt : IrType → Bool
  | .int _ _ => true
  | _ => false

def shift (op : Expr → Expr → Expr) (value amount : Typed) : Except CheckError Typed := do
  ensure (isInt value.type) "first_operand_type->tag == Int_TAG"
  ensure (isInt amount.type) "second_operand_type->tag == Int_TAG"
  return ⟨op value.expr amount.expr, value.type⟩

def orHelper (lhs rhs : Typed) : Except CheckError Typed := do
  ensure (isInt lhs.type) "shd_has_boolean_ops(shd_get_maybe_packed_type_element(operand_type))"
  ensure (decide (lhs.type = rhs.type)) "operand type mismatch"
  return ⟨.or lhs.expr rhs.expr, lhs.type⟩

/-- `shd_bld_convert_int_zero_extend` -/
def convertIntZeroExtend (config : Config) (dst : IntType) (src : Typed) : Except CheckError Typed :=
  match src.type with
  | .int width _ => do
      let val ← reinterpret config (.int width false) src
      let val ← convert config ⟨dst.width, false⟩ val
      reinterpret config (.int dst.width dst.isSigned) val
  | _ => .error (.assertion "src_type->tag == Int_TAG")

/-! ## The pass -/

/-- `is_extended_type` -/
def isExtendedType (allowVectors : Bool) : IrType → Bool
  | .int _ _ => true
  | .float _ => true
  | .pack elementType _ => allowVectors && isExtendedType false elementType
  | _ => false

/-- `is_supported_natively` -/
def isSupportedNatively (config : Config) (elementType : IrType) : Bool :=
  decide (elementType = .int .intTy32 true) || decide (elementType = .int .intTy32 false) ||
    !config.emulateSubgroupOpsExtendedTypes && isExtendedType true elementType

/-- `SpvScopeSubgroup` -/
def scopeSubgroup : Nat := 3

/-- The functions of `fns`, by their types, and the bodies of those that have been built. -/
structure State where
  fns : List IrType
  bodies : List (IrType × Expr)

abbrev Build (α : Type) : Type := State → Except CheckError (α × State)

/-- `build_subgroup_first`, where `generate` is the generator for the type of `src`. -/
def buildSubgroupFirst (config : Config) (scope : Nat) (generate : Typed → Build (Option Typed))
    (src : Typed) : Build Typed := fun s =>
  if isSupportedNatively config src.type then .ok (⟨.broadcastFirst scope src.expr, src.type⟩, s)
  else if scope ≠ scopeSubgroup then .error (.died "TODO")
  else if src.type ∈ s.fns then .ok (⟨.call src.type src.expr, src.type⟩, s)
  else do
    let (result, s) ← generate ⟨.param, src.type⟩ { s with fns := src.type :: s.fns }
    match result with
    | none => .error (.died "subgroup_first emulation is not supported for ")
    | some body =>
        .ok (⟨.call src.type src.expr, src.type⟩,
          { s with bodies := (src.type, body.expr) :: s.bodies })

/-- A generator for types that are supported natively, which is not asked. -/
def noGenerator : Typed → Build (Option Typed) := fun _ s => .ok (none, s)

/-- The case of 64-bit integers; the halves have 32 bits. -/
def generateInt64 (config : Config) (scope : Nat) (isSigned : Bool) (param : Typed) :
    Build (Option Typed) := fun s => do
  let hi ← shift .rshiftLogical param (int32Literal 32)
  let hi ← convertIntZeroExtend config ⟨.intTy32, true⟩ hi
  let lo ← convertIntZeroExtend config ⟨.intTy32, true⟩ param
  let (hi, s) ← buildSubgroupFirst config scope noGenerator hi s
  let (lo, s) ← buildSubgroupFirst config scope noGenerator lo s
  let hi ← convertIntZeroExtend config ⟨.intTy64, isSigned⟩ hi
  let lo ← convertIntZeroExtend config ⟨.intTy64, isSigned⟩ lo
  let hi ← shift .lshift hi (int32Literal 32)
  let result ← orHelper lo hi
  return (some result, s)

/-- The elements of an array, from position `i` on. -/
def generateElements (build : Typed → Build Typed) (param : Typed) :
    Nat → Nat → Build (List Typed)
  | _, 0, s => .ok ([], s)
  | i, count + 1, s => do
      let e ← extractHelper param i
      let (first, s) ← build e s
      let (rest, s) ← generateElements build param (i + 1) count s
      return (first :: rest, s)

mutual
/-- `generate`; a nominal type stands for its body, but for the body of one nominal type only. -/
def generate (config : Config) (scope : Nat) (nominal : Option Nat) :
    IrType → Typed → Build (Option Typed)
  | .typeDeclRef decl body, param, s =>
      match nominal with
      | none => generate config scope (some decl) body param s
      | some _ => .ok (none, s)
  | .record members special, param, s => do
      ensure (decide (special = .notSpecial)) "t->payload.record_type.special == 0"
      let elementTypes ← getCompositeTypeElementTypes (.record members special)
      stackArray elementTypes.length
      let (elements, s) ← generateMembers config scope 0 members param s
      let original := nominal.elim (IrType.record members special) (.typeDeclRef · (.record members special))
      let result ← compositeHelper original elements
      return (some result, s)
  | .arr elementType size, param, s => do
      let elementTypes ← getCompositeTypeElementTypes (.arr elementType size)
      stackArray elementTypes.length
      let (elements, s) ← generateElements
        (buildSubgroupFirst config scope (generate config scope none elementType)) param 0
        elementTypes.length s
      let original := nominal.elim (IrType.arr elementType size) (.typeDeclRef · (.arr elementType size))
      let result ← compositeHelper original elements
      return (some result, s)
  | .int width isSigned, param, s =>
      if width = .intTy64 then generateInt64 config scope isSigned param s else .ok (none, s)
  | .ptr pointedType addressSpace isReference, param, s => do
      let param ← reinterpret config uint64Type param
      let (word, s) ← generateInt64 config scope false param s
      match word with
      | none => .ok (none, s)
      | some word => do
          let result ← reinterpret config (.ptr pointedType addressSpace isReference) word
          return (some result, s)
  | _, _, s => .ok (none, s)
/-- The members of a record, the first of which is the one at `i`. -/
def generateMembers (config : Config) (scope i : Nat) : IrTypes → Typed → Build (List Typed)
  | .nil, _, s => .ok ([], s)
  | .cons member members, param, s => do
      let e ← extractHelper param i
      let (first, s) ← buildSubgroupFirst config scope (generate config scope none member) e s
      let (rest, s) ← generateMembers config scope (i + 1) members param s
      return (first :: rest, s)
end

/-- A broadcast in the module, by its scope and the type of its operand. -/
structure BroadcastFirst where
  scope : Nat
  type : IrType

/-- The case of `ExtInstr` in `process`, for broadcasts. -/
def process (config : Config) (instr : BroadcastFirst) : Build Typed :=
  buildSubgroupFirst config instr.scope (generate config instr.scope none instr.type)
    ⟨.param, instr.type⟩

/-- All broadcasts of a module, in the order in which they are rewritten. -/
def rewriteModule (config : Config) : List BroadcastFirst → Build (List Typed)
  | [], s => .ok ([], s)
  | instr :: rest, s => do
      let (first, s) ← process config instr s
      let (others, s) ← rewriteModule config rest s
      return (first :: others, s)

/-! ## Values -/

/-- An integer, a float or a physical pointer, as the bits it has; other scalars are booleans. -/
inductive Value
  | bits (width : Nat) (word : BitVec width)
  | bool (b : Bool)
  | composite (elements : List Value)

mutual
def HasType (config : TypesConfig) : IrType → Value → Prop
  | .int width _, .bits bits _ => bits = width.bits
  | .float width, .bits bits _ => bits = width.sizeInBytes * 8
  | .bool, .bool _ => True
  | .ptr _ _ _, .bits bits _ => bits = config.ptrSize.bits
  | .arr elementType (some size), .composite elements =>
      elements.length = (getIntLiteralValue size false).toNat ∧
        ∀ element ∈ elements, HasType config elementType element
  | .pack elementType width, .composite elements =>
      elements.length = width ∧ ∀ element ∈ elements, HasType config elementType element
  | .record members _, .composite elements => HaveTypes config members elements
  | .typeDeclRef _ body, v => HasType config body v
  | _, _ => False
def HaveTypes (config : TypesConfig) : IrTypes → List Value → Prop
  | .nil, [] => True
  | .cons head tail, value :: values => HasType config head value ∧ HaveTypes config tail values
  | _, _ => False
end

/-! ## Runs -/

/-- A subgroup and its active lanes. -/
structure Subgroup where
  size : Nat
  active : Fin size → Bool

def Subgroup.firstActive (sg : Subgroup) : Option (Fin sg.size) :=
  (List.finRange sg.size).find? sg.active

/-- What the lanes of a subgroup hold. -/
abbrev Lanes (sg : Subgroup) : Type := Fin sg.size → Option Value

def Value.element? : Value → Nat → Option Value
  | .composite elements, i => elements[i]?
  | _, _ => none

def Value.convert (src dst : IntType) : Value → Option Value
  | .bits _ word =>
      some (.bits dst.width.bits
        (if src.isSigned then word.signExtend dst.width.bits else word.setWidth dst.width.bits))
  | _ => none

def Value.shift (op : (w : Nat) → BitVec w → Nat → BitVec w) : Value → Value → Option Value
  | .bits w word, .bits _ amount => some (.bits w (op w word amount.toNat))
  | _, _ => none

def Value.or : Value → Value → Option Value
  | .bits w x, .bits _ y => some (.bits w (x ||| y.setWidth w))
  | _, _ => none

section Runs
variable {sg : Subgroup} (fns : IrType → Lanes sg → Lanes sg) (param : Lanes sg)

mutual
/-- What a lane gets for an expression. A broadcast reads the operand in another lane; what the
broadcasts of other scopes than the subgroup give is not said. -/
def Expr.eval : Expr → Lanes sg
  | .param, i => param i
  | .intLiteral literal, _ =>
      some (.bits literal.width.bits ((getIntLiteralValue literal false).setWidth literal.width.bits))
  | .extract src index, i => (src.eval i).bind (·.element? index)
  | .composite contents, i => (contents.eval i).map .composite
  | .reinterpret src, i => src.eval i
  | .convert srcType dstType src, i => (src.eval i).bind (Value.convert srcType dstType)
  | .rshiftLogical value amount, i =>
      (value.eval i).bind fun x => (amount.eval i).bind (x.shift fun _ word n => word >>> n)
  | .lshift value amount, i =>
      (value.eval i).bind fun x => (amount.eval i).bind (x.shift fun _ word n => word <<< n)
  | .or lhs rhs, i => (lhs.eval i).bind fun x => (rhs.eval i).bind x.or
  | .broadcastFirst scope src, _ =>
      if scope = scopeSubgroup then sg.firstActive.bind src.eval else none
  | .call fn arg, i => fns fn arg.eval i
def Exprs.eval : Exprs → Fin sg.size → Option (List Value)
  | .nil, _ => some []
  | .cons head tail, i => (head.eval i).bind fun x => (tail.eval i).map (x :: ·)
end

end Runs

/-- Calls of the functions of a module, up to a depth. -/
def State.run (s : State) {sg : Subgroup} : Nat → IrType → Lanes sg → Lanes sg
  | 0, _, _, _ => none
  | depth + 1, fn, arg, i => (s.bodies.lookup fn).bind fun body => body.eval (s.run depth) arg i

/-! ## What a broadcast is for -/

/-- Every active lane gets the whole value of the first one. -/
def Broadcasts (config : Config) (s : State) (type : IrType) (expr : Expr) : Prop :=
  ∃ least, ∀ depth ≥ least, ∀ (sg : Subgroup) (values : Fin sg.size → Value),
    (∀ i, sg.active i = true → HasType config.types type (values i)) →
      ∀ first, sg.firstActive = some first → ∀ i, sg.active i = true →
        expr.eval (s.run depth) (fun lane => some (values lane)) i = some (values first)

end Shady.SubgroupOps
