import Shady.FoldNode

/-!
# When folding is the run-time meaning

Folding an expression is exact at every node if and only if the host arithmetic
is exact on the constant operands of every node.
-/

set_option autoImplicit false

namespace Shady

/-- Folding the expression kills no host computation, gives canonical literals
and computes what the expression computes, in every execution. -/
def FoldsRight (expression : Node) : Prop :=
  ∃ folded, build expression = .ok folded ∧ folded.Canonical ∧
    ∀ env, eval env folded = eval env expression

/-- `P` holds of the expression and of all its subexpressions. -/
def Node.Everywhere (P : Node → Prop) : Node → Prop
  | .constantRef definition => P (.constantRef definition) ∧ definition.Everywhere P
  | .primOp1 op typeArguments operand =>
      P (.primOp1 op typeArguments operand) ∧ operand.Everywhere P
  | .primOp2 op lhs rhs =>
      P (.primOp2 op lhs rhs) ∧ lhs.Everywhere P ∧ rhs.Everywhere P
  | .primOp3 op first second third =>
      P (.primOp3 op first second third) ∧ first.Everywhere P ∧
        second.Everywhere P ∧ third.Everywhere P
  | node => P node

/-! ## Whole expressions -/

/-- Where the host is exact at every node, the expression folds right. -/
theorem build_folded : ∀ (expression : Node) (type : ScalarType),
    typeOf expression = some type → expression.Canonical →
    expression.Everywhere HostExactAt →
    ∃ folded, build expression = .ok folded ∧ Folded expression folded := by
  intro expression
  induction expression with
  | intLiteral lit =>
      intro type typed canonical _
      exact ⟨_, rfl, canonical, fun _ => rfl, rfl, rfl⟩
  | boolLiteral b =>
      intro type typed canonical _
      exact ⟨_, rfl, canonical, fun _ => rfl, rfl, rfl⟩
  | value id declared =>
      intro type typed canonical _
      exact ⟨_, rfl, canonical, fun _ => rfl, rfl, rfl⟩
  | constantRef definition ih =>
      intro type typed canonical everywhere
      obtain ⟨folded, built, keeps⟩ := ih type typed canonical everywhere.2
      exact ⟨.constantRef folded, by simp only [build, built]; rfl,
        keeps.canonical, keeps.sameEval, keeps.sameType, keeps.sameConstant⟩
  | primOp1 op typeArguments operand ih =>
      intro type typed canonical everywhere
      obtain ⟨src, operandTyped, -⟩ := Option.bind_eq_some_iff.mp typed
      obtain ⟨newOperand, built, keeps⟩ := ih src operandTyped canonical everywhere.2
      obtain ⟨folded, created, result⟩ :=
        createPrimOp1_folded op typeArguments type keeps typed everywhere.1
      exact ⟨folded, by simp only [build, built]; exact created, result⟩
  | primOp2 op lhs rhs lhsInduction rhsInduction =>
      intro type typed canonical everywhere
      obtain ⟨leftType, leftTyped, rest⟩ := Option.bind_eq_some_iff.mp typed
      obtain ⟨rightType, rightTyped, -⟩ := Option.bind_eq_some_iff.mp rest
      obtain ⟨newLhs, leftBuilt, left⟩ :=
        lhsInduction leftType leftTyped canonical.1 everywhere.2.1
      obtain ⟨newRhs, rightBuilt, right⟩ :=
        rhsInduction rightType rightTyped canonical.2 everywhere.2.2
      obtain ⟨folded, created, result⟩ :=
        createPrimOp2_folded op type left right typed everywhere.1
      exact ⟨folded, by simp only [build, leftBuilt, rightBuilt]; exact created, result⟩
  | primOp3 op first second third firstInduction secondInduction thirdInduction =>
      intro type typed canonical everywhere
      obtain ⟨firstType, firstTyped, rest⟩ := Option.bind_eq_some_iff.mp typed
      obtain ⟨secondType, secondTyped, rest⟩ := Option.bind_eq_some_iff.mp rest
      obtain ⟨thirdType, thirdTyped, -⟩ := Option.bind_eq_some_iff.mp rest
      obtain ⟨newFirst, firstBuilt, a⟩ :=
        firstInduction firstType firstTyped canonical.1 everywhere.2.1
      obtain ⟨newSecond, secondBuilt, b⟩ :=
        secondInduction secondType secondTyped canonical.2.1 everywhere.2.2.1
      obtain ⟨newThird, thirdBuilt, c⟩ :=
        thirdInduction thirdType thirdTyped canonical.2.2 everywhere.2.2.2
      refine ⟨.primOp3 op newFirst newSecond newThird, ?_,
        ⟨a.canonical, b.canonical, c.canonical⟩, ?_, ?_, rfl⟩
      · simp only [build, firstBuilt, secondBuilt, thirdBuilt]
        exact createPrimOp3_plain op newFirst newSecond newThird
      · intro env
        simp only [eval, a.sameEval env, b.sameEval env, c.sameEval env]
      · simp only [typeOf, a.sameType, b.sameType, c.sameType]

theorem Folded.foldsRight {expression folded : Node} (built : build expression = .ok folded)
    (keeps : Folded expression folded) : FoldsRight expression :=
  ⟨folded, built, keeps.canonical, keeps.sameEval⟩

/-- A literal that is right for a constant has the constant's pattern in its field. -/
theorem field_of_right {expression : Node} {type : IntType} {z : Int} {field : BitVec 64}
    (env : Env) (canonical : (⟨type.width, type.isSigned, field⟩ : IntLiteral).Canonical)
    (evaluates : eval env expression = some (.int type z))
    (right : eval env (.intLiteral ⟨type.width, type.isSigned, field⟩) =
      eval env expression) :
    (field.toNat : Int) = type.pattern z := by
  have denoted : (⟨type.width, type.isSigned, field⟩ : IntLiteral).denotes = z := by
    rw [evaluates] at right
    simpa [eval, IntLiteral.type] using right
  rw [← denoted]
  exact (canonical_pattern ⟨type.width, type.isSigned, field⟩ canonical).symm

/-- An execution in which every unknown is zero. -/
def Env.zero : Env := ⟨fun _ => 0, fun _ => false, fun _ _ _ => 0⟩

/-- Folding one node right, over operands folded right, needs the host to be exact. -/
theorem hostExact_of_foldsRight1 (op : PrimOpTag) (typeArguments : List ScalarType)
    {operand newOperand : Node} (type : ScalarType) (keeps : Folded operand newOperand)
    (built : build operand = .ok newOperand)
    (typed : typeOf (.primOp1 op typeArguments operand) = some type)
    (right : FoldsRight (.primOp1 op typeArguments operand)) :
    HostExactAt (.primOp1 op typeArguments operand) := by
  intro argument x constant
  obtain ⟨src, operandTyped, checked⟩ := Option.bind_eq_some_iff.mp typed
  obtain ⟨resolved, holds⟩ := keeps.resolves constant
  obtain rfl : src = .int argument :=
    Option.some.inj (operandTyped.symm.trans (keeps.constant_type constant))
  rcases foldConstantMath_literal1 op typeArguments newOperand argument x type resolved
      holds checked with ⟨plain, -⟩ | ⟨dst, z, field, rfl, -, operated, fold, fieldExact⟩
  · cases op with
    | neg => cases typeArguments <;> simp [constantOperator1, checkTypePrimOp1] at plain checked
    | _ => trivial
  · obtain ⟨folded, created, canonical, sameEval⟩ := right
    simp only [build, built] at created
    have literal : folded = .intLiteral ⟨dst.width, dst.isSigned, field⟩ := by
      simp only [bind, Except.bind, createPrimOp1, fold] at created
      exact (Except.ok.inj created).symm
    subst literal
    refine fieldExact.mp (field_of_right Env.zero canonical ?_ (sameEval Env.zero))
    simp [eval, keeps.constant_eval constant Env.zero, constantOperator1_eval operated]

theorem hostExact_of_foldsRight2 (op : PrimOpTag) {lhs rhs newLhs newRhs : Node}
    (type : ScalarType) (left : Folded lhs newLhs) (right : Folded rhs newRhs)
    (leftBuilt : build lhs = .ok newLhs) (rightBuilt : build rhs = .ok newRhs)
    (typed : typeOf (.primOp2 op lhs rhs) = some type)
    (foldsRight : FoldsRight (.primOp2 op lhs rhs)) :
    HostExactAt (.primOp2 op lhs rhs) := by
  intro leftInt x rightInt y leftConstant rightConstant
  by_cases arith : op = .add ∨ op = .sub ∨ op = .mul ∨ op = .div ∨ op = .mod
  · obtain ⟨int, leftTyped, rightTyped, rfl⟩ := arith_types arith typed
    obtain rfl : leftInt = int := by
      simpa [leftTyped] using (left.constant_type leftConstant).symm
    obtain rfl : rightInt = leftInt := by
      simpa [rightTyped] using (right.constant_type rightConstant).symm
    obtain ⟨folded, created, canonical, sameEval⟩ := foldsRight
    simp only [build, leftBuilt, rightBuilt] at created
    have fold := foldConstantMath_literal2 op left right leftConstant rightConstant
    cases operated : constantOperator2 op x y with
    | some z =>
        rw [operated] at fold
        obtain ⟨field, computed, fieldExact⟩ := fold
        have literal : folded = .intLiteral ⟨rightInt.width, rightInt.isSigned, field⟩ := by
          simp only [bind, Except.bind, createPrimOp2, computed] at created
          exact (Except.ok.inj created).symm
        subst literal
        have field := field_of_right (z := rightInt.wrap z) Env.zero canonical (by
          simp [eval, left.constant_eval leftConstant Env.zero,
            right.constant_eval rightConstant Env.zero,
            constantOperator2_eval Env.zero rightInt rightInt operated])
          (sameEval Env.zero)
        rw [IntType.pattern_wrap] at field
        exact fieldExact.mp field
    | none =>
        rw [operated] at fold
        rcases fold with notFolded | ⟨faults, -⟩
        · have zero : (op = .div ∨ op = .mod) ∧ y = 0 := by
            rcases arith with rfl | rfl | rfl | rfl | rfl <;>
              simp_all [constantOperator2]
          -- the folder does divide there
          obtain ⟨leftResolved, -⟩ := left.resolves leftConstant
          obtain ⟨rightResolved, rightHolds⟩ := right.resolves rightConstant
          have fieldZero := (field_zero_iff rightInt y rightHolds).mpr zero.2
          rcases zero.1 with rfl | rfl <;>
            simp [foldConstantMath, leftResolved, rightResolved, hostBinary, fieldZero,
              Except.map] at notFolded
        · simp only [bind, Except.bind, createPrimOp2, faults] at created
          cases created
  · cases op <;> simp_all [HostExact2]

/-- Folding is right at every node of an expression exactly when the host
arithmetic is exact on the constant operands of every node. -/
theorem foldsRight_iff_hostExact : ∀ (expression : Node) (type : ScalarType),
    typeOf expression = some type → expression.Canonical →
    (expression.Everywhere FoldsRight ↔ expression.Everywhere HostExactAt) := by
  intro expression type typed canonical
  constructor
  · induction expression generalizing type with
    | intLiteral lit => intro _; trivial
    | boolLiteral b => intro _; trivial
    | value id declared => intro _; trivial
    | constantRef definition ih =>
        intro everywhere
        exact ⟨trivial, ih type typed canonical everywhere.2⟩
    | primOp1 op typeArguments operand ih =>
        intro everywhere
        obtain ⟨src, operandTyped, -⟩ := Option.bind_eq_some_iff.mp typed
        have inner := ih src operandTyped canonical everywhere.2
        obtain ⟨newOperand, built, keeps⟩ :=
          build_folded operand src operandTyped canonical inner
        exact ⟨hostExact_of_foldsRight1 op typeArguments type keeps built typed
          everywhere.1, inner⟩
    | primOp2 op lhs rhs lhsInduction rhsInduction =>
        intro everywhere
        obtain ⟨leftType, leftTyped, rest⟩ := Option.bind_eq_some_iff.mp typed
        obtain ⟨rightType, rightTyped, -⟩ := Option.bind_eq_some_iff.mp rest
        have leftInner := lhsInduction leftType leftTyped canonical.1 everywhere.2.1
        have rightInner := rhsInduction rightType rightTyped canonical.2 everywhere.2.2
        obtain ⟨newLhs, leftBuilt, left⟩ :=
          build_folded lhs leftType leftTyped canonical.1 leftInner
        obtain ⟨newRhs, rightBuilt, right⟩ :=
          build_folded rhs rightType rightTyped canonical.2 rightInner
        exact ⟨hostExact_of_foldsRight2 op type left right leftBuilt rightBuilt typed
          everywhere.1, leftInner, rightInner⟩
    | primOp3 op first second third firstInduction secondInduction thirdInduction =>
        intro everywhere
        obtain ⟨firstType, firstTyped, rest⟩ := Option.bind_eq_some_iff.mp typed
        obtain ⟨secondType, secondTyped, rest⟩ := Option.bind_eq_some_iff.mp rest
        obtain ⟨thirdType, thirdTyped, -⟩ := Option.bind_eq_some_iff.mp rest
        exact ⟨trivial, firstInduction firstType firstTyped canonical.1 everywhere.2.1,
          secondInduction secondType secondTyped canonical.2.1 everywhere.2.2.1,
          thirdInduction thirdType thirdTyped canonical.2.2 everywhere.2.2.2⟩
  · induction expression generalizing type with
    | intLiteral lit =>
        intro _
        exact ⟨_, rfl, canonical, fun _ => rfl⟩
    | boolLiteral b =>
        intro _
        exact ⟨_, rfl, canonical, fun _ => rfl⟩
    | value id declared =>
        intro _
        exact ⟨_, rfl, canonical, fun _ => rfl⟩
    | constantRef definition ih =>
        intro everywhere
        obtain ⟨folded, built, keeps⟩ := build_folded _ type typed canonical everywhere
        exact ⟨keeps.foldsRight built, ih type typed canonical everywhere.2⟩
    | primOp1 op typeArguments operand ih =>
        intro everywhere
        obtain ⟨folded, built, keeps⟩ := build_folded _ type typed canonical everywhere
        obtain ⟨src, operandTyped, -⟩ := Option.bind_eq_some_iff.mp typed
        exact ⟨keeps.foldsRight built, ih src operandTyped canonical everywhere.2⟩
    | primOp2 op lhs rhs lhsInduction rhsInduction =>
        intro everywhere
        obtain ⟨folded, built, keeps⟩ := build_folded _ type typed canonical everywhere
        obtain ⟨leftType, leftTyped, rest⟩ := Option.bind_eq_some_iff.mp typed
        obtain ⟨rightType, rightTyped, -⟩ := Option.bind_eq_some_iff.mp rest
        exact ⟨keeps.foldsRight built,
          lhsInduction leftType leftTyped canonical.1 everywhere.2.1,
          rhsInduction rightType rightTyped canonical.2 everywhere.2.2⟩
    | primOp3 op first second third firstInduction secondInduction thirdInduction =>
        intro everywhere
        obtain ⟨folded, built, keeps⟩ := build_folded _ type typed canonical everywhere
        obtain ⟨firstType, firstTyped, rest⟩ := Option.bind_eq_some_iff.mp typed
        obtain ⟨secondType, secondTyped, rest⟩ := Option.bind_eq_some_iff.mp rest
        obtain ⟨thirdType, thirdTyped, -⟩ := Option.bind_eq_some_iff.mp rest
        exact ⟨keeps.foldsRight built,
          firstInduction firstType firstTyped canonical.1 everywhere.2.1,
          secondInduction secondType secondTyped canonical.2.1 everywhere.2.2.1,
          thirdInduction thirdType thirdTyped canonical.2.2 everywhere.2.2.2⟩

/-! ## Where the host arithmetic goes wrong -/

/-- `u8 255 + u8 1`, whose folded field is 256; `i32 -6 / i32 2`, whose patterns
are divided as unsigned words; `u32 1 / u32 0`, divided by the compiler. -/
theorem fold_goes_wrong :
    ¬ FoldsRight (.primOp2 .add (.intLiteral (uint8Literal 255))
        (.intLiteral (uint8Literal 1))) ∧
      ¬ FoldsRight (.primOp2 .div (.intLiteral (int32Literal (-6)))
        (.intLiteral (int32Literal 2))) ∧
      build (.primOp2 .div (.intLiteral (uint32Literal 1))
        (.intLiteral (uint32Literal 0))) = .error .divisionByZero := by
  refine ⟨?_, ?_, by decide⟩
  · rintro ⟨folded, built, canonical, -⟩
    have literal : folded = .intLiteral ⟨.intTy8, false, 256⟩ :=
      Except.ok.inj (built.symm.trans (by decide))
    subst literal
    have tooLarge : ¬ IntLiteral.Canonical ⟨.intTy8, false, 256⟩ := by decide
    exact tooLarge canonical
  · rintro ⟨folded, built, -, sameEval⟩
    have literal : folded = .intLiteral ⟨.intTy32, true, 0x7FFFFFFD⟩ :=
      Except.ok.inj (built.symm.trans (by decide))
    subst literal
    exact absurd (sameEval Env.zero) (by decide)

/-- An expression whose folding meets no carry and no division. -/
theorem foldsRight_of_small_sum :
    (Node.primOp2 .add (.intLiteral (uint8Literal 3)) (.intLiteral (uint8Literal 4))).Everywhere
      FoldsRight := by
  have canonical : (Node.primOp2 .add (.intLiteral (uint8Literal 3))
      (.intLiteral (uint8Literal 4))).Canonical :=
    ⟨intLiteralHelper_canonical _ _ _, intLiteralHelper_canonical _ _ _⟩
  refine (foldsRight_iff_hostExact _ (.int ⟨.intTy8, false⟩) rfl canonical).mpr
    ⟨?_, trivial, trivial⟩
  intro type x rightType y left right
  cases left
  cases right
  decide

end Shady
