import Shady.Ir.IrTypes
import Shady.Ir.PrimOp

/-!
# Emulated 64-bit integers

Model of `src/shady/passes/lower_int64.c`. Types, literals and operators on 64-bit integers are
rewritten to records of two 32-bit integers, the low half first; a node is checked when it is made,
as in `src/shady/check.c`. Whether a value is uniform is left out.
-/

set_option autoImplicit false

namespace Shady.LowerInt64

/-! ## Rewritten nodes -/

/-- A scalar type, or a record of two 32-bit integers. -/
inductive LoweredType
  | scalar (type : ScalarType)
  | pair (isSigned : Bool)
  deriving DecidableEq

inductive Lowered
  | intLiteral (lit : IntLiteral)
  | boolLiteral (b : Bool)
  | value (id : Nat) (type : ScalarType)
  /-- What was a 64-bit integer unknown to the compiler. -/
  | pairValue (id : Nat) (isSigned : Bool)
  | constantRef (definition : Lowered)
  | tuple (lo hi : Lowered)
  | extract (isSigned : Bool) (src : Lowered) (index : Nat)
  | addCarry (lhs rhs : Lowered)
  | primOp1 (op : PrimOpTag) (typeArguments : List LoweredType) (operand : Lowered)
  | primOp2 (op : PrimOpTag) (lhs rhs : Lowered)
  | primOp3 (op : PrimOpTag) (first second third : Lowered)

structure Typed where
  node : Lowered
  type : LoweredType

def is64 : ScalarType → Bool
  | .int type => decide (type.width = .intTy64)
  | .bool => false

/-- The case of `Int` in `process`, for the types of nodes. -/
def lowerType (type : ScalarType) : LoweredType := if is64 type then .pair true else .scalar type

/-! ## Checks -/

def LoweredType.scalar? : LoweredType → Option ScalarType
  | .scalar type => some type
  | .pair _ => none

/-- A record is no arithmetic type, and is reinterpreted as its own type only. -/
def checkType1 (op : PrimOpTag) (typeArguments : List LoweredType) : LoweredType → Option LoweredType
  | .scalar type =>
      (typeArguments.mapM LoweredType.scalar?).bind fun types =>
        (checkTypePrimOp1 op types type).map .scalar
  | .pair isSigned =>
      match op, typeArguments with
      | .reinterpret, [.pair isSigned'] => if isSigned = isSigned' then some (.pair isSigned) else none
      | _, _ => none

/-- Every type is comparable. -/
def checkType2 (op : PrimOpTag) : LoweredType → LoweredType → Option LoweredType
  | .scalar lhs, .scalar rhs => (checkTypePrimOp2 op lhs rhs).map .scalar
  | .pair lhs, .pair rhs =>
      match op with
      | .eq | .neq => if lhs = rhs then some (.scalar .bool) else none
      | _ => none
  | _, _ => none

def checkType3 (op : PrimOpTag) (first second third : LoweredType) : Option LoweredType :=
  match op, first with
  | .select, .scalar .bool => if second = third then some second else none
  | _, _ => none

/-- A node with the type that the checker gives it. -/
def checked (node : Lowered) (type : Option LoweredType) : Except CheckError Typed :=
  match type with
  | some type => .ok ⟨node, type⟩
  | none => .error (.assertion "operand types")

/-! ## The pass -/

/-- `is_mem`: literals, values and primitive operators are not of the class. -/
def isMem : Lowered → Bool := fun _ => false

/-- `shd_bld_add_instruction_extract` -/
def addInstructionExtract (instruction : Typed) : Except CheckError (List Typed) := do
  ensure (isMem instruction.node) "is_mem(instruction)"
  return [instruction]

def node? (nodes : List Typed) (i : Nat) : Except CheckError Typed :=
  match nodes[i]? with
  | some node => .ok node
  | none => .error (.assertion "A node is read behind the last one")

def extractHalf (src : Typed) (index : Nat) : Except CheckError Typed :=
  match src.type with
  | .pair isSigned => .ok ⟨.extract isSigned src.node index, .scalar (.int ⟨.intTy32, isSigned⟩)⟩
  | .scalar _ => .error (.died "Trying to enter non-composite type")

/-- `extract_low_hi_halves` -/
def extractLowHiHalves (src : Typed) : Except CheckError (Typed × Typed) := do
  let lo ← node? (← addInstructionExtract (← extractHalf src 0)) 0
  let hi ← node? (← addInstructionExtract (← extractHalf src 1)) 0
  return (lo, hi)

def addCarry (lhs rhs : Typed) : Except CheckError Typed :=
  match lhs.type with
  | .scalar (.int ⟨.intTy32, isSigned⟩) =>
      checked (.addCarry lhs.node rhs.node) (if lhs.type = rhs.type then some (.pair isSigned) else none)
  | _ => .error (.assertion "shd_is_arithm_type(operand_type)")

def add (lhs rhs : Typed) : Except CheckError Typed :=
  checked (.primOp2 .add lhs.node rhs.node) (checkType2 .add lhs.type rhs.type)

/-- `shd_tuple_helper` of two integers of 32 bits. -/
def tuple (lo hi : Typed) : Except CheckError Typed :=
  match lo.type, hi.type with
  | .scalar (.int ⟨.intTy32, isSigned⟩), .scalar (.int ⟨.intTy32, isSigned'⟩) =>
      checked (.tuple lo.node hi.node) (if isSigned = isSigned' then some (.pair isSigned) else none)
  | _, _ => .error (.assertion "other records are not needed")

/-- The case of `add_op`. -/
def lowerAdd (lhs rhs : Typed) : Except CheckError Typed := do
  let (lo1, hi1) ← extractLowHiHalves lhs
  let (lo2, hi2) ← extractLowHiHalves rhs
  let lowAndCarry ← addInstructionExtract (← addCarry lo1 lo2)
  let lo ← node? lowAndCarry 0
  let hi ← node? (← addInstructionExtract (← add hi1 hi2)) 0
  let hi ← node? (← addInstructionExtract (← add hi (← node? lowAndCarry 1))) 0
  tuple lo hi

/-- The case of `IntLiteral`. -/
def lowerLiteral (lit : IntLiteral) : Typed :=
  if lit.width = .intTy64 then
    ⟨.tuple (.intLiteral (uint32Literal (lit.value.setWidth 32)))
      (.intLiteral (uint32Literal ((lit.value >>> 32).setWidth 32))), .pair false⟩
  else ⟨.intLiteral lit, .scalar (.int lit.type)⟩

def lowerValue (id : Nat) (type : ScalarType) : Typed :=
  match type with
  | .int intType =>
      if intType.width = .intTy64 then ⟨.pairValue id intType.isSigned, .pair true⟩
      else ⟨.value id type, .scalar type⟩
  | .bool => ⟨.value id type, .scalar type⟩

/-- `should_convert` -/
def shouldConvert (node : Node) : Bool := (typeOf node).any is64

/-- `process`, with `lower.int64`; a constant has the rewritten type of its declaration. -/
def process : Node → Except CheckError Typed
  | .intLiteral lit => .ok (lowerLiteral lit)
  | .boolLiteral b => .ok ⟨.boolLiteral b, .scalar .bool⟩
  | .value id type => .ok (lowerValue id type)
  | .constantRef definition => do
      let value ← process definition
      checked (.constantRef value.node) ((typeOf definition).map lowerType)
  | .primOp1 op typeArguments operand => do
      let operand ← process operand
      checked (.primOp1 op (typeArguments.map lowerType) operand.node)
        (checkType1 op (typeArguments.map lowerType) operand.type)
  | .primOp2 op lhs rhs => do
      let newLhs ← process lhs
      let newRhs ← process rhs
      if op = .add ∧ shouldConvert lhs then lowerAdd newLhs newRhs
      else checked (.primOp2 op newLhs.node newRhs.node) (checkType2 op newLhs.type newRhs.type)
  | .primOp3 op first second third => do
      let first ← process first
      let second ← process second
      let third ← process third
      checked (.primOp3 op first.node second.node third.node)
        (checkType3 op first.type second.type third.type)

/-! ## Run-time meaning -/

/-- A scalar, or the low and the high half of a 64-bit integer. -/
inductive LoweredValue
  | scalar (v : Value)
  | pair (lo hi : BitVec 32)
  deriving DecidableEq

/-- The halves of a 64-bit word, low and high. -/
def halves (z : Int) : BitVec 32 × BitVec 32 :=
  ((BitVec.ofInt 64 z).setWidth 32, ((BitVec.ofInt 64 z) >>> 32).setWidth 32)

/-- What stands for a value. -/
def represent : Value → LoweredValue
  | .int type z =>
      if type.width = .intTy64 then .pair (halves z).1 (halves z).2 else .scalar (.int type z)
  | .bool b => .scalar (.bool b)

def evalTuple : LoweredValue → LoweredValue → Option LoweredValue
  | .scalar (.int _ lo), .scalar (.int _ hi) => some (.pair (BitVec.ofInt 32 lo) (BitVec.ofInt 32 hi))
  | _, _ => none

def evalExtract (isSigned : Bool) (index : Nat) : LoweredValue → Option LoweredValue
  | .pair lo hi =>
      some (.scalar (.int ⟨.intTy32, isSigned⟩
        (IntType.wrap ⟨.intTy32, isSigned⟩ (if index = 0 then lo else hi).toNat)))
  | .scalar _ => none

/-- The sum and the carry, of operands that are taken as unsigned. -/
def evalAddCarry : LoweredValue → LoweredValue → Option LoweredValue
  | .scalar (.int _ x), .scalar (.int _ y) =>
      let sum := (BitVec.ofInt 32 x).toNat + (BitVec.ofInt 32 y).toNat
      some (.pair (BitVec.ofNat 32 sum) (BitVec.ofNat 32 (sum / 2 ^ 32)))
  | _, _ => none

def evalLowered1 (op : PrimOpTag) (typeArguments : List LoweredType) : LoweredValue → Option LoweredValue
  | .scalar v =>
      (typeArguments.mapM LoweredType.scalar?).bind fun types => (evalPrimOp1 op types v).map .scalar
  | .pair lo hi => if op = .reinterpret then some (.pair lo hi) else none

def evalLowered2 (env : Env) (op : PrimOpTag) : LoweredValue → LoweredValue → Option LoweredValue
  | .scalar v, .scalar w => (evalPrimOp2 env op v w).map .scalar
  | .pair lo hi, .pair lo' hi' =>
      match op with
      | .eq => some (.scalar (.bool (decide (lo = lo' ∧ hi = hi'))))
      | .neq => some (.scalar (.bool (decide (¬ (lo = lo' ∧ hi = hi')))))
      | _ => none
  | _, _ => none

def evalLowered3 (op : PrimOpTag) : LoweredValue → LoweredValue → LoweredValue → Option LoweredValue
  | .scalar (.bool condition), second, third =>
      if op = .select then some (if condition then second else third) else none
  | _, _, _ => none

def evalLowered (env : Env) : Lowered → Option LoweredValue
  | .intLiteral lit => some (.scalar (.int lit.type lit.denotes))
  | .boolLiteral b => some (.scalar (.bool b))
  | .value id (.int type) => some (.scalar (.int type (type.wrap (env.int id))))
  | .value id .bool => some (.scalar (.bool (env.bool id)))
  | .pairValue id isSigned =>
      some (represent (.int ⟨.intTy64, isSigned⟩ (IntType.wrap ⟨.intTy64, isSigned⟩ (env.int id))))
  | .constantRef definition => evalLowered env definition
  | .tuple lo hi => do evalTuple (← evalLowered env lo) (← evalLowered env hi)
  | .extract isSigned src index => do evalExtract isSigned index (← evalLowered env src)
  | .addCarry lhs rhs => do evalAddCarry (← evalLowered env lhs) (← evalLowered env rhs)
  | .primOp1 op typeArguments operand => do
      evalLowered1 op typeArguments (← evalLowered env operand)
  | .primOp2 op lhs rhs => do evalLowered2 env op (← evalLowered env lhs) (← evalLowered env rhs)
  | .primOp3 op first second third => do
      evalLowered3 op (← evalLowered env first) (← evalLowered env second) (← evalLowered env third)

/-! ## What the emulation is for -/

def LoweredType.no64 : LoweredType → Bool
  | .scalar type => !is64 type
  | .pair _ => true

/-- No node has, takes or names a 64-bit integer. -/
def Lowered.no64 : Lowered → Bool
  | .intLiteral lit => !is64 (.int lit.type)
  | .boolLiteral _ => true
  | .value _ type => !is64 type
  | .pairValue _ _ => true
  | .constantRef definition => definition.no64
  | .tuple lo hi => lo.no64 && hi.no64
  | .extract _ src _ => src.no64
  | .addCarry lhs rhs => lhs.no64 && rhs.no64
  | .primOp1 _ typeArguments operand => typeArguments.all LoweredType.no64 && operand.no64
  | .primOp2 _ lhs rhs => lhs.no64 && rhs.no64
  | .primOp3 _ first second third => first.no64 && second.no64 && third.no64

/-- The pass rewrites the node, no 64-bit integer is left, and what is computed represents the value
of the node in every execution. -/
def Emulated (node : Node) : Prop :=
  ∃ lowered, process node = .ok lowered ∧ lowered.node.no64 = true ∧ lowered.type.no64 = true ∧
    ∀ env v, eval env node = some v → evalLowered env lowered.node = some (represent v)

/-! ## When it is -/

/-- What becomes of a literal has unsigned halves, of anything else signed ones. -/
def fromLiteral : Node → Bool
  | .intLiteral _ => true
  | .primOp3 _ _ second _ => fromLiteral second
  | _ => false

/-- The only operators that take or give 64-bit integers are a comparison for equality or a choice
of two that are alike, literals or not, and a reinterpretation of one that is no literal. -/
def Handled : Node → Prop
  | .intLiteral _ => True
  | .boolLiteral _ => True
  | .value _ _ => True
  | .constantRef definition => Handled definition
  | .primOp1 op typeArguments operand => Handled operand ∧
      if shouldConvert operand then op = .reinterpret ∧ fromLiteral operand = false
      else ∀ type ∈ typeArguments, is64 type = false
  | .primOp2 op lhs rhs => Handled lhs ∧ Handled rhs ∧
      (shouldConvert lhs = false ∧ shouldConvert rhs = false ∨
        (op = .eq ∨ op = .neq) ∧ fromLiteral lhs = fromLiteral rhs)
  | .primOp3 _ first second third => Handled first ∧ Handled second ∧ Handled third ∧
      (shouldConvert second = false ∨ fromLiteral second = fromLiteral third)

end Shady.LowerInt64
