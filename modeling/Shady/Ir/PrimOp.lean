import Shady.Ir.IntLiteral

/-!
# Scalar expressions and their run-time meaning

The `PrimOp` nodes over integer and boolean values (`primops.json`), with the
typing rules of `_shd_check_type_prim_op` and the meaning of each operator on
typed values.  Nodes are hash-consed in the source, so structural equality of
the model is pointer equality of the source.
-/

set_option autoImplicit false

namespace Shady

open TwosComplement

inductive ScalarType where
  | int (type : IntType)
  | bool
deriving DecidableEq, Repr

/-- The primitive operators whose operands and results are integers or booleans. -/
inductive PrimOpTag where
  | neg | not | abs | sign
  | add | sub | mul | div | mod | min | max
  | and | or | xor
  | gt | gte | lt | lte | eq | neq
  | rshiftLogical | rshiftArithm | lshift
  | convert | reinterpret
  | select
deriving DecidableEq, Repr

inductive Node where
  | intLiteral (lit : IntLiteral)
  /-- The `True` and `False` nodes. -/
  | boolLiteral (b : Bool)
  /-- A value unknown to the compiler: a parameter, a load, a call result. -/
  | value (id : Nat) (type : ScalarType)
  /-- A reference to a `Constant` declaration with this definition. -/
  | constantRef (definition : Node)
  | primOp1 (op : PrimOpTag) (typeArguments : List ScalarType) (operand : Node)
  | primOp2 (op : PrimOpTag) (lhs rhs : Node)
  | primOp3 (op : PrimOpTag) (first second third : Node)
deriving DecidableEq, Repr

/-! ## Typing -/

/-- `shd_is_conversion_legal` on two integer types. -/
def isConversionLegal (src dst : IntType) : Bool :=
  !(src.isSigned != dst.isSigned && src.width != dst.width)

/-- `shd_is_reinterpret_cast_legal` on two integer types. -/
def isReinterpretCastLegal (src dst : IntType) : Bool := src.width == dst.width

/-- `_shd_check_type_prim_op`, one operand. -/
def checkTypePrimOp1 (op : PrimOpTag) (typeArguments : List ScalarType) :
    ScalarType → Option ScalarType
  | .int src =>
      match op, typeArguments with
      | .neg, [] => some (.int src)
      | .not, [] => some (.int src)
      | .abs, [] => if src.isSigned then some (.int src) else none
      | .sign, [] => if src.isSigned then some (.int src) else none
      | .convert, [.int dst] => if isConversionLegal src dst then some (.int dst) else none
      | .reinterpret, [.int dst] =>
          if isReinterpretCastLegal src dst then some (.int dst) else none
      | _, _ => none
  | .bool =>
      match op, typeArguments with
      | .not, [] => some .bool
      | _, _ => none

/-- `_shd_check_type_prim_op`, two operands. -/
def checkTypePrimOp2 (op : PrimOpTag) (lhs rhs : ScalarType) : Option ScalarType :=
  match op with
  | .add | .sub | .mul | .div | .mod | .min | .max =>
      match lhs with
      | .int _ => if lhs = rhs then some lhs else none
      | .bool => none
  | .and | .or | .xor => if lhs = rhs then some lhs else none
  | .gt | .gte | .lt | .lte =>
      match lhs with
      | .int _ => if lhs = rhs then some .bool else none
      | .bool => none
  | .eq | .neq => if lhs = rhs then some .bool else none
  | .rshiftLogical | .rshiftArithm | .lshift =>
      match lhs, rhs with
      | .int _, .int _ => some lhs
      | _, _ => none
  | _ => none

/-- `_shd_check_type_prim_op`, three operands. -/
def checkTypePrimOp3 (op : PrimOpTag) (first second third : ScalarType) :
    Option ScalarType :=
  match op, first with
  | .select, .bool => if second = third then some second else none
  | _, _ => none

/-- The `type` field the checker gives a node, `none` when it is rejected. -/
def typeOf : Node → Option ScalarType
  | .intLiteral lit => some (.int lit.type)
  | .boolLiteral _ => some .bool
  | .value _ type => some type
  | .constantRef definition => typeOf definition
  | .primOp1 op typeArguments operand => do
      checkTypePrimOp1 op typeArguments (← typeOf operand)
  | .primOp2 op lhs rhs => do
      checkTypePrimOp2 op (← typeOf lhs) (← typeOf rhs)
  | .primOp3 op first second third => do
      checkTypePrimOp3 op (← typeOf first) (← typeOf second) (← typeOf third)

/-! ## Run-time meaning -/

inductive Value where
  | int (type : IntType) (z : Int)
  | bool (b : Bool)
deriving DecidableEq, Repr

/-- What an execution supplies: the unknown values, and the results the target
gives where the operation is undefined (a zero divisor, an oversized shift). -/
structure Env where
  int : Nat → Int
  bool : Nat → Bool
  undefinedResult : PrimOpTag → Int → Int → Int

/-- The integer operators that give a value of their first operand's type, before
the reduction to the width. -/
def intOperator (env : Env) (op : PrimOpTag) (type : IntType) (x y : Int) : Option Int :=
  match op with
  | .add => some (x + y)
  | .sub => some (x - y)
  | .mul => some (x * y)
  | .div => some (if y = 0 then env.undefinedResult .div x y else x.tdiv y)
  | .mod => some (if y = 0 then env.undefinedResult .mod x y else x.tmod y)
  | .min => some (Min.min x y)
  | .max => some (Max.max x y)
  | .and => some ((type.pattern x).toNat &&& (type.pattern y).toNat : Nat)
  | .or => some ((type.pattern x).toNat ||| (type.pattern y).toNat : Nat)
  | .xor => some ((type.pattern x).toNat ^^^ (type.pattern y).toNat : Nat)
  | .lshift =>
      some (if 0 ≤ y ∧ y < type.width.bits then x * 2 ^ y.toNat
        else env.undefinedResult .lshift x y)
  | .rshiftLogical =>
      some (if 0 ≤ y ∧ y < type.width.bits then type.pattern x / 2 ^ y.toNat
        else env.undefinedResult .rshiftLogical x y)
  | .rshiftArithm =>
      some (if 0 ≤ y ∧ y < type.width.bits
        then reading type.width.bits true x / 2 ^ y.toNat
        else env.undefinedResult .rshiftArithm x y)
  | _ => none

def comparison (op : PrimOpTag) (x y : Int) : Option Bool :=
  match op with
  | .gt => some (decide (x > y))
  | .gte => some (decide (x ≥ y))
  | .lt => some (decide (x < y))
  | .lte => some (decide (x ≤ y))
  | .eq => some (decide (x = y))
  | .neq => some (decide (x ≠ y))
  | _ => none

def boolOperator (op : PrimOpTag) (x y : Bool) : Option Bool :=
  match op with
  | .and => some (x && y)
  | .or => some (x || y)
  | .xor => some (x ^^ y)
  | .eq => some (x == y)
  | .neq => some (x != y)
  | _ => none

def evalPrimOp1 (op : PrimOpTag) (typeArguments : List ScalarType) : Value → Option Value
  | .int type x =>
      match op, typeArguments with
      | .neg, [] => some (.int type (type.wrap (-x)))
      | .not, [] => some (.int type (type.wrap (-x - 1)))
      | .abs, [] => some (.int type (type.wrap |x|))
      | .sign, [] => some (.int type (type.wrap x.sign))
      | .convert, [.int dst] => some (.int dst (dst.wrap x))
      | .reinterpret, [.int dst] => some (.int dst (dst.wrap x))
      | _, _ => none
  | .bool b =>
      match op, typeArguments with
      | .not, [] => some (.bool !b)
      | _, _ => none

def evalPrimOp2 (env : Env) (op : PrimOpTag) : Value → Value → Option Value
  | .int type x, .int _ y =>
      match intOperator env op type x y with
      | some z => some (.int type (type.wrap z))
      | none => (comparison op x y).map .bool
  | .bool x, .bool y => (boolOperator op x y).map .bool
  | _, _ => none

def evalPrimOp3 (op : PrimOpTag) : Value → Value → Value → Option Value
  | .bool condition, second, third =>
      match op with
      | .select => some (if condition then second else third)
      | _ => none
  | _, _, _ => none

/-- The value an execution computes for a node. -/
def eval (env : Env) : Node → Option Value
  | .intLiteral lit => some (.int lit.type lit.denotes)
  | .boolLiteral b => some (.bool b)
  | .value id (.int type) => some (.int type (type.wrap (env.int id)))
  | .value id .bool => some (.bool (env.bool id))
  | .constantRef definition => eval env definition
  | .primOp1 op typeArguments operand => do
      evalPrimOp1 op typeArguments (← eval env operand)
  | .primOp2 op lhs rhs => do
      evalPrimOp2 env op (← eval env lhs) (← eval env rhs)
  | .primOp3 op first second third => do
      evalPrimOp3 op (← eval env first) (← eval env second) (← eval env third)

/-- A value of a type, reduced to its width. -/
def Value.HasType : Value → ScalarType → Prop
  | .int type z, .int expected => type = expected ∧ type.Holds z
  | .bool _, .bool => True
  | _, _ => False

theorem Value.hasType_int {v : Value} {type : IntType} (typed : v.HasType (.int type)) :
    ∃ z, v = .int type z ∧ type.Holds z := by
  cases v with
  | bool b => exact typed.elim
  | int actual z =>
      obtain ⟨rfl, holds⟩ := typed
      exact ⟨z, rfl, holds⟩

theorem Value.hasType_bool {v : Value} (typed : v.HasType .bool) : ∃ b, v = .bool b := by
  cases v with
  | bool b => exact ⟨b, rfl⟩
  | int type z => exact typed.elim

theorem evalPrimOp1_total (op : PrimOpTag) (typeArguments : List ScalarType)
    (src dst : ScalarType) (v : Value) (typed : v.HasType src)
    (checked : checkTypePrimOp1 op typeArguments src = some dst) :
    ∃ w, evalPrimOp1 op typeArguments v = some w ∧ w.HasType dst := by
  cases src with
  | bool =>
      obtain ⟨b, rfl⟩ := Value.hasType_bool typed
      simp only [checkTypePrimOp1] at checked
      split at checked
      · cases checked
        exact ⟨_, rfl, trivial⟩
      · cases checked
  | int type =>
      obtain ⟨x, rfl, -⟩ := Value.hasType_int typed
      simp only [checkTypePrimOp1] at checked
      split at checked <;>
        simp only [Option.ite_none_right_eq_some, Option.some.injEq, reduceCtorEq] at checked
      all_goals
        first
          | (obtain rfl := checked; exact ⟨_, rfl, rfl, IntType.holds_wrap _ _⟩)
          | (obtain rfl := checked.2; exact ⟨_, rfl, rfl, IntType.holds_wrap _ _⟩)

theorem evalPrimOp2_total (env : Env) (op : PrimOpTag) (left right dst : ScalarType)
    (v w : Value) (leftTyped : v.HasType left) (rightTyped : w.HasType right)
    (checked : checkTypePrimOp2 op left right = some dst) :
    ∃ u, evalPrimOp2 env op v w = some u ∧ u.HasType dst := by
  cases left with
  | bool =>
      have same : right = .bool := by
        cases op <;> simp_all [checkTypePrimOp2]
      subst same
      obtain ⟨x, rfl⟩ := Value.hasType_bool leftTyped
      obtain ⟨y, rfl⟩ := Value.hasType_bool rightTyped
      cases op <;> simp_all [checkTypePrimOp2] <;> subst checked <;>
        exact ⟨_, rfl, trivial⟩
  | int type =>
      have isInt : ∃ other, right = .int other := by
        cases right with
        | int other => exact ⟨other, rfl⟩
        | bool => cases op <;> simp_all [checkTypePrimOp2]
      obtain ⟨other, rfl⟩ := isInt
      obtain ⟨x, rfl, -⟩ := Value.hasType_int leftTyped
      obtain ⟨y, rfl, -⟩ := Value.hasType_int rightTyped
      cases op <;> simp [checkTypePrimOp2] at checked <;> (try cases checked.2) <;>
        (try cases checked) <;>
        first
          | exact ⟨_, rfl, rfl, IntType.holds_wrap _ _⟩
          | exact ⟨_, rfl, trivial⟩

/-- Every node the checker accepts has a value of its type in every execution. -/
theorem eval_total (env : Env) : ∀ (node : Node) (type : ScalarType),
    typeOf node = some type → ∃ v, eval env node = some v ∧ v.HasType type := by
  intro node
  induction node with
  | intLiteral lit =>
      intro type typed
      cases typed
      exact ⟨_, rfl, rfl, lit.holds_denotes⟩
  | boolLiteral b =>
      intro type typed
      cases typed
      exact ⟨_, rfl, trivial⟩
  | value id declared =>
      intro type typed
      cases typed
      cases declared with
      | int type => exact ⟨_, rfl, rfl, type.holds_wrap _⟩
      | bool => exact ⟨_, rfl, trivial⟩
  | constantRef definition ih => exact ih
  | primOp1 op typeArguments operand ih =>
      intro type typed
      obtain ⟨src, operandTyped, checked⟩ := Option.bind_eq_some_iff.mp typed
      obtain ⟨v, operandEval, hasType⟩ := ih src operandTyped
      obtain ⟨w, step, result⟩ :=
        evalPrimOp1_total op typeArguments src type v hasType checked
      exact ⟨w, by simp [eval, operandEval, step], result⟩
  | primOp2 op lhs rhs lhsInduction rhsInduction =>
      intro type typed
      obtain ⟨left, leftTyped, typed⟩ := Option.bind_eq_some_iff.mp typed
      obtain ⟨right, rightTyped, checked⟩ := Option.bind_eq_some_iff.mp typed
      obtain ⟨v, leftEval, leftType⟩ := lhsInduction left leftTyped
      obtain ⟨w, rightEval, rightType⟩ := rhsInduction right rightTyped
      obtain ⟨u, step, result⟩ :=
        evalPrimOp2_total env op left right type v w leftType rightType checked
      exact ⟨u, by simp [eval, leftEval, rightEval, step], result⟩
  | primOp3 op first second third firstInduction secondInduction thirdInduction =>
      intro type typed
      obtain ⟨conditionType, firstTyped, typed⟩ := Option.bind_eq_some_iff.mp typed
      obtain ⟨left, secondTyped, typed⟩ := Option.bind_eq_some_iff.mp typed
      obtain ⟨right, thirdTyped, checked⟩ := Option.bind_eq_some_iff.mp typed
      obtain ⟨c, firstEval, firstType⟩ := firstInduction conditionType firstTyped
      obtain ⟨v, secondEval, leftType⟩ := secondInduction left secondTyped
      obtain ⟨w, thirdEval, rightType⟩ := thirdInduction right thirdTyped
      unfold checkTypePrimOp3 at checked
      split at checked
      · obtain ⟨same, rfl⟩ := by simpa using checked
        subst same
        obtain ⟨b, rfl⟩ := Value.hasType_bool firstType
        refine ⟨if b then v else w, by simp [eval, firstEval, secondEval, thirdEval,
          evalPrimOp3], ?_⟩
        split <;> assumption
      · cases checked

end Shady
