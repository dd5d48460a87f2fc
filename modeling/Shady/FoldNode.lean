import Shady.Fold

/-!
# Folding one node

`constantValue` says which expressions have a value that does not depend on the
execution, and which value that is.  Creating a node over operands that were
folded right keeps the node's type, value and constant, where the host arithmetic
is exact on its constant operands.
-/

set_option autoImplicit false

namespace Shady

open TwosComplement

/-- The folded one-operand operators on a constant. -/
def constantOperator1 (op : PrimOpTag) (typeArguments : List ScalarType)
    (type : IntType) (x : Int) : Option (IntType × Int) :=
  match op, typeArguments with
  | .neg, [] => some (type, type.wrap (-x))
  | .convert, [.int dst] => some (dst, dst.wrap x)
  | .reinterpret, [.int dst] => some (dst, dst.wrap x)
  | _, _ => none

/-- The folded two-operand operators on constants, before reduction. -/
def constantOperator2 (op : PrimOpTag) (x y : Int) : Option Int :=
  match op with
  | .add => some (x + y)
  | .sub => some (x - y)
  | .mul => some (x * y)
  | .div => if y = 0 then none else some (x.tdiv y)
  | .mod => if y = 0 then none else some (x.tmod y)
  | _ => none

/-- The compile-time value of an expression, taken from the run-time meaning of
the operators; a product with a constant zero is constant. -/
def constantValue : Node → Option (IntType × Int)
  | .intLiteral lit => some (lit.type, lit.denotes)
  | .constantRef definition => constantValue definition
  | .primOp1 op typeArguments operand =>
      match constantValue operand with
      | some (type, x) => constantOperator1 op typeArguments type x
      | none => none
  | .primOp2 op lhs rhs =>
      match constantValue lhs, constantValue rhs with
      | some (type, x), some (_, y) =>
          (constantOperator2 op x y).map fun z => (type, type.wrap z)
      | some (type, x), none => if op = .mul ∧ x = 0 then some (type, 0) else none
      | none, some (type, y) => if op = .mul ∧ y = 0 then some (type, 0) else none
      | none, none => none
  | _ => none

/-- The host arithmetic is exact at this node. -/
def HostExactAt : Node → Prop
  | .primOp1 op _ operand =>
      ∀ type x, constantValue operand = some (type, x) → HostExact1 op type x
  | .primOp2 op lhs rhs =>
      ∀ type x rightType y, constantValue lhs = some (type, x) →
        constantValue rhs = some (rightType, y) → HostExact2 op type x y
  | _ => True

/-! ## Literals under constants -/

theorem resolve_canonical {node : Node} {lit : IntLiteral} (canonical : node.Canonical)
    (resolved : resolveToIntLiteral node = some lit) : lit.Canonical := by
  induction node with
  | intLiteral actual =>
      cases resolved
      exact canonical
  | constantRef definition ih => exact ih canonical resolved
  | _ => cases resolved

theorem resolve_eval {node : Node} {lit : IntLiteral} (env : Env)
    (resolved : resolveToIntLiteral node = some lit) :
    eval env node = some (.int lit.type lit.denotes) := by
  induction node with
  | intLiteral actual =>
      cases resolved
      rfl
  | constantRef definition ih => exact ih resolved
  | _ => cases resolved

theorem resolve_type {node : Node} {lit : IntLiteral}
    (resolved : resolveToIntLiteral node = some lit) :
    typeOf node = some (.int lit.type) := by
  induction node with
  | intLiteral actual =>
      cases resolved
      rfl
  | constantRef definition ih => exact ih resolved
  | _ => cases resolved

/-- What folding must keep of an expression. -/
structure Folded (expression folded : Node) : Prop where
  canonical : folded.Canonical
  sameEval : ∀ env, eval env folded = eval env expression
  sameType : typeOf folded = typeOf expression
  sameConstant : (resolveToIntLiteral folded).map (fun lit => (lit.type, lit.denotes)) =
    constantValue expression

theorem Folded.resolves {expression folded : Node} (h : Folded expression folded)
    {type : IntType} {x : Int} (constant : constantValue expression = some (type, x)) :
    resolveToIntLiteral folded = some (canonicalLiteral type x) ∧ type.Holds x := by
  rw [← h.sameConstant] at constant
  obtain ⟨lit, resolved, same⟩ := Option.map_eq_some_iff.mp constant
  cases same
  have canonical := resolve_canonical h.canonical resolved
  rw [resolved, ← (canonical_iff lit).mp canonical]
  exact ⟨rfl, lit.holds_denotes⟩

theorem Folded.unresolved {expression folded : Node} (h : Folded expression folded)
    (variable_ : constantValue expression = none) : resolveToIntLiteral folded = none := by
  rw [← h.sameConstant] at variable_
  simpa using variable_

theorem Folded.constant_eval {expression folded : Node} (h : Folded expression folded)
    {type : IntType} {x : Int} (constant : constantValue expression = some (type, x))
    (env : Env) : eval env expression = some (.int type x) := by
  obtain ⟨resolved, holds⟩ := h.resolves constant
  rw [← h.sameEval env, resolve_eval env resolved, canonicalLiteral_denotes, holds]
  rfl

theorem Folded.constant_type {expression folded : Node} (h : Folded expression folded)
    {type : IntType} {x : Int} (constant : constantValue expression = some (type, x)) :
    typeOf expression = some (.int type) := by
  rw [← h.sameType, resolve_type (h.resolves constant).1]
  rfl

/-- A folded expression that is the canonical literal of its constant value. -/
theorem folded_literal {expression : Node} {type : IntType} {z : Int}
    (holds : type.Holds z) (constant : constantValue expression = some (type, z))
    (typed : typeOf expression = some (.int type))
    (evaluates : ∀ env, eval env expression = some (.int type z)) :
    Folded expression (.intLiteral (canonicalLiteral type z)) where
  canonical := canonicalLiteral_canonical type z
  sameEval env := by
    rw [evaluates env]
    simp only [eval, canonicalLiteral_type, canonicalLiteral_denotes]
    rw [holds]
  sameType := typed.symm
  sameConstant := by
    rw [constant]
    simp only [resolveToIntLiteral, Option.map_some, canonicalLiteral_type,
      canonicalLiteral_denotes]
    rw [holds]

/-! ## What the host leaves in the literal -/

theorem convertBitmask_toNat (dst : IntType) :
    (convertBitmask dst).toNat = 2 ^ dst.width.bits - 1 := by
  obtain ⟨width, isSigned⟩ := dst
  cases width <;> cases isSigned <;> decide

/-- Masking the extended field is the conversion to the destination type, whatever
the operand. -/
theorem convert_field (dst : IntType) (lit : IntLiteral) :
    (((getIntLiteralValue lit lit.isSigned) &&& convertBitmask dst).toNat : Int) =
      dst.pattern lit.denotes := by
  have divides : (2 : Int) ^ dst.width.bits ∣ 2 ^ 64 := pow_dvd_pow 2 dst.width.bits_le
  have field := getIntLiteralValue_modEq lit
  rw [and_mask_toNat _ _ _ (convertBitmask_toNat dst)]
  generalize (getIntLiteralValue lit lit.isSigned).toNat = n at field ⊢
  rw [Int.natCast_mod]
  push_cast
  exact field.of_dvd divides

/-- A one-operand operator on a literal: folded exactly when it is a constant
operator, and to the right literal exactly when the host is exact. -/
theorem foldConstantMath_literal1 (op : PrimOpTag) (typeArguments : List ScalarType)
    (node : Node) (type : IntType) (x : Int) (dstType : ScalarType)
    (resolved : resolveToIntLiteral node = some (canonicalLiteral type x))
    (holds : type.Holds x)
    (checked : checkTypePrimOp1 op typeArguments (.int type) = some dstType) :
    (constantOperator1 op typeArguments type x = none ∧
        foldConstantMath op typeArguments [node] = .ok none) ∨
      ∃ dst z field, dstType = .int dst ∧ dst.Holds z ∧
        constantOperator1 op typeArguments type x = some (dst, z) ∧
        foldConstantMath op typeArguments [node] =
          .ok (some (.intLiteral ⟨dst.width, dst.isSigned, field⟩)) ∧
        ((field.toNat : Int) = dst.pattern z ↔ HostExact1 op type x) := by
  simp only [checkTypePrimOp1] at checked
  split at checked
  · -- neg
    cases checked
    refine Or.inr ⟨type, type.wrap (-x), -(canonicalLiteral type x).value, rfl,
      type.holds_wrap _, rfl, ?_, ?_⟩
    · simp [foldConstantMath, resolved, hostUnary, canonicalLiteral]
    · rw [IntType.pattern_wrap]
      exact host_neg_iff type x holds
  · exact Or.inl ⟨rfl, by simp [foldConstantMath, resolved, hostUnary]⟩
  · exact Or.inl ⟨rfl, by simp [foldConstantMath, resolved, hostUnary]⟩
  · exact Or.inl ⟨rfl, by simp [foldConstantMath, resolved, hostUnary]⟩
  · -- convert
    rename_i dst
    obtain ⟨-, rfl⟩ := by simpa using checked
    have denoted : (canonicalLiteral type x).denotes = x := by
      rw [canonicalLiteral_denotes]; exact holds
    refine Or.inr ⟨dst, dst.wrap x, _, rfl, dst.holds_wrap _, rfl,
      by simp only [foldConstantMath, List.mapM_cons, List.mapM_nil, resolved]; rfl, ?_⟩
    rw [IntType.pattern_wrap, convert_field, denoted]
    simp [HostExact1]
  · -- reinterpret
    rename_i dst
    obtain ⟨legal, rfl⟩ := by simpa using checked
    have sameWidth : type.width = dst.width := by
      simpa [isReinterpretCastLegal] using legal
    refine Or.inr ⟨dst, dst.wrap x, _, rfl, dst.holds_wrap _, rfl,
      by simp only [foldConstantMath, List.mapM_cons, List.mapM_nil, resolved]; rfl, ?_⟩
    rw [IntType.pattern_wrap, canonicalLiteral_value]
    simp [HostExact1, IntType.pattern, sameWidth]
  · cases checked

/-- The host operator on the fields of two canonical literals. -/
theorem hostBinary_exact (op : PrimOpTag) (type : IntType) (x y : Int)
    (left : type.Holds x) (right : type.Holds y) :
    match constantOperator2 op x y with
    | some z => ∃ field,
        hostBinary op (canonicalLiteral type x).value (canonicalLiteral type y).value =
          some (.ok field) ∧
        ((field.toNat : Int) = type.pattern z ↔ HostExact2 op type x y)
    | none =>
        hostBinary op (canonicalLiteral type x).value (canonicalLiteral type y).value =
            none ∨
          hostBinary op (canonicalLiteral type x).value (canonicalLiteral type y).value =
              some (.error .divisionByZero) ∧ ¬ HostExact2 op type x y := by
  cases op with
  | add => exact ⟨_, rfl, host_add_iff type x y⟩
  | sub => exact ⟨_, rfl, host_sub_iff type x y⟩
  | mul => exact ⟨_, rfl, host_mul_iff type x y⟩
  | div =>
      by_cases zero : y = 0
      · simp [constantOperator2, hostBinary, HostExact2, zero,
          (field_zero_iff type 0 (zero ▸ right)).mpr rfl]
      · have fieldNonzero := (not_congr (field_zero_iff type y right)).mpr zero
        simp only [constantOperator2, if_neg zero, hostBinary, if_neg fieldNonzero]
        refine ⟨_, rfl, ?_⟩
        rw [host_div_iff type x y left right zero]
        simp [HostExact2, zero]
  | mod =>
      by_cases zero : y = 0
      · simp [constantOperator2, hostBinary, HostExact2, zero,
          (field_zero_iff type 0 (zero ▸ right)).mpr rfl]
      · have fieldNonzero := (not_congr (field_zero_iff type y right)).mpr zero
        simp only [constantOperator2, if_neg zero, hostBinary, if_neg fieldNonzero]
        refine ⟨_, rfl, ?_⟩
        rw [host_mod_iff type x y left right zero]
        simp [HostExact2, zero]
  | _ => exact Or.inl rfl

/-! ## One node -/

theorem eq_canonical_of_field {type : IntType} {z : Int} {field : BitVec 64}
    (same : (field.toNat : Int) = type.pattern z) :
    (⟨type.width, type.isSigned, field⟩ : IntLiteral) = canonicalLiteral type z :=
  (eq_canonicalLiteral_iff type z field).mpr same

theorem constantOperator1_eval {op : PrimOpTag} {typeArguments : List ScalarType}
    {type dst : IntType} {x z : Int}
    (constant : constantOperator1 op typeArguments type x = some (dst, z)) :
    evalPrimOp1 op typeArguments (.int type x) = some (.int dst z) := by
  unfold constantOperator1 at constant
  split at constant <;> cases constant <;> rfl

theorem constantOperator2_eval {op : PrimOpTag} {x y z : Int} (env : Env)
    (type rightType : IntType) (constant : constantOperator2 op x y = some z) :
    evalPrimOp2 env op (.int type x) (.int rightType y) =
      some (.int type (type.wrap z)) := by
  have same : intOperator env op type x y = some z := by
    unfold constantOperator2 at constant
    split at constant <;> (try split at constant) <;> cases constant <;>
      simp_all [intOperator]
  simp [evalPrimOp2, same]

/-- An operator the folder leaves alone keeps what its operand keeps. -/
theorem folded_primOp1 (op : PrimOpTag) (typeArguments : List ScalarType)
    {operand newOperand : Node} (h : Folded operand newOperand)
    (opaque_ : constantValue (.primOp1 op typeArguments operand) = none) :
    Folded (.primOp1 op typeArguments operand) (.primOp1 op typeArguments newOperand) where
  canonical := h.canonical
  sameEval env := by simp only [eval, h.sameEval env]
  sameType := by simp only [typeOf, h.sameType]
  sameConstant := by rw [opaque_]; rfl

theorem folded_primOp2 (op : PrimOpTag) {lhs rhs newLhs newRhs : Node}
    (left : Folded lhs newLhs) (right : Folded rhs newRhs)
    (opaque_ : constantValue (.primOp2 op lhs rhs) = none) :
    Folded (.primOp2 op lhs rhs) (.primOp2 op newLhs newRhs) where
  canonical := ⟨left.canonical, right.canonical⟩
  sameEval env := by simp only [eval, left.sameEval env, right.sameEval env]
  sameType := by simp only [typeOf, left.sameType, right.sameType]
  sameConstant := by rw [opaque_]; rfl

theorem foldConstantMath_unresolved (op : PrimOpTag) (typeArguments : List ScalarType)
    (before after : List Node) {node : Node}
    (unresolved : resolveToIntLiteral node = none) :
    foldConstantMath op typeArguments (before ++ node :: after) = .ok none := by
  have noLiterals : (before ++ node :: after).mapM resolveToIntLiteral = none := by
    induction before with
    | nil => simp [unresolved]
    | cons first rest ih =>
        simp only [List.cons_append, List.mapM_cons, ih]
        cases resolveToIntLiteral first <;> rfl
  simp [foldConstantMath, noLiterals]

theorem literals_length : ∀ (operands : List Node) (lits : List IntLiteral),
    operands.mapM resolveToIntLiteral = some lits → lits.length = operands.length := by
  intro operands
  induction operands with
  | nil =>
      intro lits all
      cases all
      rfl
  | cons first rest ih =>
      intro lits all
      rw [List.mapM_cons] at all
      obtain ⟨lit, -, all⟩ := Option.bind_eq_some_iff.mp all
      obtain ⟨others, restAll, all⟩ := Option.bind_eq_some_iff.mp all
      cases all
      simp [ih others restAll]

/-- What creation does when `fold_constant_math` gives `NULL`. -/
theorem createPrimOp1_unfolded (op : PrimOpTag) (typeArguments : List ScalarType)
    (operand : Node)
    (notFolded : foldConstantMath op typeArguments [operand] = .ok none) :
    (createPrimOp1 op typeArguments operand = .ok operand ∧
        (op = .convert ∨ op = .reinterpret) ∧
        ∃ dst, typeArguments = [dst] ∧ typeOf operand = some dst) ∨
      createPrimOp1 op typeArguments operand = .ok (.primOp1 op typeArguments operand) := by
  simp only [createPrimOp1, notFolded]
  simp only [bind, Except.bind, pure, Except.pure]
  split
  · rename_i dst
    by_cases identity : typeOf operand = some dst
    · exact Or.inl ⟨by rw [if_pos identity], Or.inl rfl, dst, rfl, identity⟩
    · exact Or.inr (by rw [if_neg identity])
  · rename_i dst
    by_cases identity : typeOf operand = some dst
    · exact Or.inl ⟨by rw [if_pos identity], Or.inr rfl, dst, rfl, identity⟩
    · exact Or.inr (by rw [if_neg identity])
  · exact Or.inr rfl

/-- A cast to the operand's own type is its operand. -/
theorem folded_identity_cast (op : PrimOpTag) (cast : op = .convert ∨ op = .reinterpret)
    {operand newOperand : Node} {dst type : ScalarType} (h : Folded operand newOperand)
    (operandTyped : typeOf newOperand = some dst)
    (typed : typeOf (.primOp1 op [dst] operand) = some type)
    (opaque_ : constantValue operand = none) :
    Folded (.primOp1 op [dst] operand) newOperand := by
  have same : typeOf operand = some dst := h.sameType ▸ operandTyped
  have checked : checkTypePrimOp1 op [dst] dst = some type := by
    simpa [typeOf, same] using typed
  cases dst with
  | bool => rcases cast with rfl | rfl <;> cases checked
  | int dst =>
      have typeIsDst : type = .int dst := by
        rcases cast with rfl | rfl <;> simp [checkTypePrimOp1] at checked <;>
          exact checked.2.symm
      refine ⟨h.canonical, ?_, by rw [operandTyped, typed, typeIsDst], ?_⟩
      · intro env
        obtain ⟨v, evaluates, hasType⟩ := eval_total env operand _ same
        obtain ⟨x, rfl, holds⟩ := Value.hasType_int hasType
        have unchanged : evalPrimOp1 op [.int dst] (.int dst x) =
            some (.int dst x) := by
          rcases cast with rfl | rfl <;> simp only [evalPrimOp1] <;> rw [holds]
        rw [h.sameEval env]
        simp [eval, evaluates, unchanged]
      · rw [h.unresolved opaque_]
        simp [constantValue, opaque_]

/-- Node creation for one operand whose own folding is right. -/
theorem createPrimOp1_folded (op : PrimOpTag) (typeArguments : List ScalarType)
    {operand newOperand : Node} (type : ScalarType) (h : Folded operand newOperand)
    (typed : typeOf (.primOp1 op typeArguments operand) = some type)
    (exactHere : HostExactAt (.primOp1 op typeArguments operand)) :
    ∃ folded, createPrimOp1 op typeArguments newOperand = .ok folded ∧
      Folded (.primOp1 op typeArguments operand) folded := by
  obtain ⟨src, operandTyped, checked⟩ := Option.bind_eq_some_iff.mp typed
  cases constant : constantValue operand with
  | none =>
      have opaque_ : constantValue (.primOp1 op typeArguments operand) = none := by
        simp [constantValue, constant]
      have notFolded : foldConstantMath op typeArguments [newOperand] = .ok none :=
        foldConstantMath_unresolved op typeArguments [] [] (h.unresolved constant)
      rcases createPrimOp1_unfolded op typeArguments newOperand notFolded with
        ⟨created, cast, dst, rfl, identity⟩ | created
      · exact ⟨_, created, folded_identity_cast op cast h identity typed constant⟩
      · exact ⟨_, created, folded_primOp1 op typeArguments h opaque_⟩
  | some pair =>
      obtain ⟨argument, x⟩ := pair
      obtain ⟨resolved, holds⟩ := h.resolves constant
      have srcIsInt : src = .int argument :=
        Option.some.inj (operandTyped.symm.trans (h.constant_type constant))
      subst srcIsInt
      rcases foldConstantMath_literal1 op typeArguments newOperand argument x type resolved
          holds checked with ⟨plain, notFolded⟩ | ⟨dst, z, field, rfl, zHolds, operated,
          fold, fieldExact⟩
      · have opaque_ : constantValue (.primOp1 op typeArguments operand) = none := by
          simp [constantValue, constant, plain]
        rcases createPrimOp1_unfolded op typeArguments newOperand notFolded with
          ⟨created, cast, dst, rfl, identity⟩ | created
        · -- a legal cast of a literal is always folded
          have legal : checkTypePrimOp1 op [dst] (.int argument) = some type := checked
          cases dst with
          | bool => rcases cast with rfl | rfl <;> cases legal
          | int dst => rcases cast with rfl | rfl <;> cases plain
        · exact ⟨_, created, folded_primOp1 op typeArguments h opaque_⟩
      · have here : HostExact1 op argument x := exactHere argument x constant
        refine ⟨.intLiteral (canonicalLiteral dst z), ?_, ?_⟩
        · simp only [createPrimOp1, fold, eq_canonical_of_field (fieldExact.mpr here)]
          rfl
        · refine folded_literal zHolds (by simp [constantValue, constant, operated]) typed ?_
          intro env
          simp [eval, h.constant_eval constant env, constantOperator1_eval operated]

/-! ## Two operands -/

/-- The value of a small literal is read off its field. -/
theorem canonicalLiteral_field_eq (type : IntType) (x : Int) (holds : type.Holds x)
    (n : Nat) (small : n < 128) :
    getIntLiteralValue (canonicalLiteral type x) false = BitVec.ofNat 64 n ↔ x = n := by
  have bits : 7 ≤ type.width.bits - 1 := by
    cases type.width <;> decide
  have half : (2 : Int) ^ 7 ≤ 2 ^ (type.width.bits - 1) :=
    pow_le_pow_right₀ (by norm_num) bits
  have smallBits : (n : Int) < 2 ^ type.width.bits := by
    rw [type.width.bits_eq_succ, pow_succ]
    omega
  have patternOfSmall : type.pattern n = n := residue_of_lt _ _ (by omega) smallBits
  have wrapOfSmall : type.wrap n = n := by
    cases signed : type.isSigned with
    | false =>
        simp only [IntType.wrap, signed]
        exact patternOfSmall
    | true =>
        simp only [IntType.wrap, reading, signed, if_true]
        rw [type.width.bits_eq_succ]
        apply Int.bmod_eq_of_le <;> push_cast [pow_succ] <;> omega
  have field := getIntLiteralValue_unsigned (canonicalLiteral type x)
  rw [canonicalLiteral_value, canonicalLiteral_type] at field
  have fieldPattern : type.pattern (type.pattern x) = type.pattern x := by
    rw [← IntType.pattern_wrap type (type.pattern x), IntType.wrap_pattern,
      IntType.pattern_wrap]
  rw [fieldPattern] at field
  constructor
  · intro same
    rw [same, BitVec.toNat_ofNat, Nat.mod_eq_of_lt (by omega)] at field
    rw [← holds, ← wrapOfSmall]
    exact type.wrap_eq_of_pattern (by rw [← field, patternOfSmall])
  · rintro rfl
    apply BitVec.eq_of_toNat_eq
    rw [patternOfSmall] at field
    rw [BitVec.toNat_ofNat, Nat.mod_eq_of_lt (by omega)]
    exact_mod_cast field

theorem Folded.isZero_iff {expression folded : Node} (h : Folded expression folded) :
    isZero folded = true ↔ ∃ type, constantValue expression = some (type, 0) := by
  unfold isZero
  cases constant : constantValue expression with
  | none => simp [h.unresolved constant]
  | some pair =>
      obtain ⟨type, x⟩ := pair
      obtain ⟨resolved, holds⟩ := h.resolves constant
      have field := canonicalLiteral_field_eq type x holds 0 (by norm_num)
      simp only [resolved, beq_iff_eq, Option.some.injEq, Prod.mk.injEq]
      rw [show (0 : BitVec 64) = BitVec.ofNat 64 0 from rfl, field]
      simp

theorem Folded.isOne_iff {expression folded : Node} (h : Folded expression folded) :
    isOne folded = true ↔ ∃ type, constantValue expression = some (type, 1) := by
  unfold isOne
  cases constant : constantValue expression with
  | none => simp [h.unresolved constant]
  | some pair =>
      obtain ⟨type, x⟩ := pair
      obtain ⟨resolved, holds⟩ := h.resolves constant
      have field := canonicalLiteral_field_eq type x holds 1 (by norm_num)
      simp only [resolved, beq_iff_eq, Option.some.injEq, Prod.mk.injEq]
      rw [show (1 : BitVec 64) = BitVec.ofNat 64 1 from rfl, field]
      simp

/-- The arithmetic operators take and give one integer type. -/
theorem arith_types {op : PrimOpTag} {lhs rhs : Node} {type : ScalarType}
    (arith : op = .add ∨ op = .sub ∨ op = .mul ∨ op = .div ∨ op = .mod)
    (typed : typeOf (.primOp2 op lhs rhs) = some type) :
    ∃ int, typeOf lhs = some (.int int) ∧ typeOf rhs = some (.int int) ∧
      type = .int int := by
  obtain ⟨left, leftTyped, typed⟩ := Option.bind_eq_some_iff.mp typed
  obtain ⟨right, rightTyped, checked⟩ := Option.bind_eq_some_iff.mp typed
  cases left with
  | bool =>
      rcases arith with rfl | rfl | rfl | rfl | rfl <;>
        simp [checkTypePrimOp2] at checked
  | int int =>
      have same : ScalarType.int int = right ∧ ScalarType.int int = type := by
        rcases arith with rfl | rfl | rfl | rfl | rfl <;>
          simpa [checkTypePrimOp2] using checked
      exact ⟨int, leftTyped, same.1 ▸ rightTyped, same.2.symm⟩

theorem int_eval (env : Env) {node : Node} {type : IntType}
    (typed : typeOf node = some (.int type)) :
    ∃ x, eval env node = some (.int type x) ∧ type.Holds x := by
  obtain ⟨v, evaluates, hasType⟩ := eval_total env node _ typed
  obtain ⟨x, rfl, holds⟩ := Value.hasType_int hasType
  exact ⟨x, evaluates, holds⟩

/-- An operation that an identity reduces to one of its operands. -/
theorem Folded.of_operand {expression operand newOperand : Node}
    (h : Folded operand newOperand)
    (sameType : typeOf operand = typeOf expression)
    (sameEval : ∀ env, eval env operand = eval env expression)
    (sameConstant : constantValue operand = constantValue expression) :
    Folded expression newOperand :=
  ⟨h.canonical, fun env => (h.sameEval env).trans (sameEval env),
    h.sameType.trans sameType, h.sameConstant.trans sameConstant⟩

section Identities
variable {op : PrimOpTag} {lhs rhs newLhs newRhs : Node} {type : ScalarType}
  {constantType : IntType} {c : Int}

/-- `c` is neutral on the left of `op`. -/
theorem folded_neutral_left
    (arith : op = .add ∨ op = .sub ∨ op = .mul ∨ op = .div ∨ op = .mod)
    (left : Folded lhs newLhs) (right : Folded rhs newRhs)
    (typed : typeOf (.primOp2 op lhs rhs) = some type)
    (constant : constantValue lhs = some (constantType, c))
    (variable_ : constantValue rhs = none)
    (opaque_ : constantValue (.primOp2 op lhs rhs) = none)
    (neutral : ∀ env int y, intOperator env op int c y = some y) :
    Folded (.primOp2 op lhs rhs) newRhs := by
  obtain ⟨int, leftTyped, rightTyped, rfl⟩ := arith_types arith typed
  refine right.of_operand (rightTyped.trans typed.symm) ?_ (variable_.trans opaque_.symm)
  intro env
  obtain ⟨y, evaluates, holds⟩ := int_eval env rightTyped
  have sameType : constantType = int := by
    simpa [leftTyped] using (left.constant_type constant).symm
  subst sameType
  have step : evalPrimOp2 env op (.int constantType c) (.int constantType y) =
      some (.int constantType y) := by
    simp only [evalPrimOp2, neutral]
    rw [holds]
  simp [eval, left.constant_eval constant env, evaluates, step]

/-- `c` is neutral on the right of `op`. -/
theorem folded_neutral_right
    (arith : op = .add ∨ op = .sub ∨ op = .mul ∨ op = .div ∨ op = .mod)
    (left : Folded lhs newLhs) (right : Folded rhs newRhs)
    (typed : typeOf (.primOp2 op lhs rhs) = some type)
    (variable_ : constantValue lhs = none)
    (constant : constantValue rhs = some (constantType, c))
    (opaque_ : constantValue (.primOp2 op lhs rhs) = none)
    (neutral : ∀ env int x, intOperator env op int x c = some x) :
    Folded (.primOp2 op lhs rhs) newLhs := by
  obtain ⟨int, leftTyped, rightTyped, rfl⟩ := arith_types arith typed
  refine left.of_operand (leftTyped.trans typed.symm) ?_ (variable_.trans opaque_.symm)
  intro env
  obtain ⟨x, evaluates, holds⟩ := int_eval env leftTyped
  have sameType : constantType = int := by
    simpa [rightTyped] using (right.constant_type constant).symm
  subst sameType
  have step : evalPrimOp2 env op (.int constantType x) (.int constantType c) =
      some (.int constantType x) := by
    simp only [evalPrimOp2, neutral]
    rw [holds]
  simp [eval, right.constant_eval constant env, evaluates, step]

theorem wrap_zero (int : IntType) : int.wrap 0 = 0 := by
  cases signed : int.isSigned <;> simp [IntType.wrap, reading, signed]

/-- A product with a constant zero on the left is that zero. -/
theorem folded_mul_zero_left (left : Folded lhs newLhs)
    (typed : typeOf (.primOp2 .mul lhs rhs) = some type)
    (zero : constantValue lhs = some (constantType, 0))
    (variable_ : constantValue rhs = none) :
    Folded (.primOp2 .mul lhs rhs) newLhs := by
  obtain ⟨int, leftTyped, rightTyped, rfl⟩ := arith_types (by simp) typed
  refine left.of_operand (leftTyped.trans typed.symm) ?_
    (by simp [constantValue, zero, variable_])
  intro env
  obtain ⟨y, evaluates, -⟩ := int_eval env rightTyped
  simp [eval, left.constant_eval zero env, evaluates, evalPrimOp2, intOperator, wrap_zero]

/-- A product with a constant zero on the right is that zero. -/
theorem folded_mul_zero_right (right : Folded rhs newRhs)
    (typed : typeOf (.primOp2 .mul lhs rhs) = some type)
    (variable_ : constantValue lhs = none)
    (zero : constantValue rhs = some (constantType, 0)) :
    Folded (.primOp2 .mul lhs rhs) newRhs := by
  obtain ⟨int, leftTyped, rightTyped, rfl⟩ := arith_types (by simp) typed
  refine right.of_operand (rightTyped.trans typed.symm) ?_
    (by simp [constantValue, zero, variable_])
  intro env
  obtain ⟨x, evaluates, -⟩ := int_eval env leftTyped
  have sameType : constantType = int := by
    simpa [rightTyped] using (right.constant_type zero).symm
  subst sameType
  simp [eval, right.constant_eval zero env, evaluates, evalPrimOp2, intOperator, wrap_zero]

/-- Zero minus a value is created as its negation. -/
theorem folded_sub_zero_left (left : Folded lhs newLhs) (right : Folded rhs newRhs)
    (typed : typeOf (.primOp2 .sub lhs rhs) = some type)
    (zero : constantValue lhs = some (constantType, 0))
    (variable_ : constantValue rhs = none) :
    createPrimOp1 .neg [] newRhs = .ok (.primOp1 .neg [] newRhs) ∧
      Folded (.primOp2 .sub lhs rhs) (.primOp1 .neg [] newRhs) := by
  obtain ⟨int, leftTyped, rightTyped, rfl⟩ := arith_types (by simp) typed
  have notFolded : foldConstantMath .neg [] [newRhs] = .ok none :=
    foldConstantMath_unresolved .neg [] [] [] (right.unresolved variable_)
  have sameType : constantType = int := by
    simpa [leftTyped] using (left.constant_type zero).symm
  subst sameType
  refine ⟨by simp only [createPrimOp1, notFolded]; rfl, right.canonical, ?_, ?_, ?_⟩
  · intro env
    obtain ⟨y, evaluates, -⟩ := int_eval env rightTyped
    simp [eval, right.sameEval env, evaluates, left.constant_eval zero env, evalPrimOp1,
      evalPrimOp2, intOperator]
  · simp [typeOf, right.sameType, rightTyped, leftTyped, checkTypePrimOp1, checkTypePrimOp2]
  · simp [resolveToIntLiteral, constantValue, zero, variable_]

/-- An equality test of a node with itself. -/
theorem folded_same_operands (left : Folded lhs newLhs) (right : Folded rhs newRhs)
    (same : newLhs = newRhs) (equality : op = .eq ∨ op = .neq)
    (typed : typeOf (.primOp2 op lhs rhs) = some type) :
    Folded (.primOp2 op lhs rhs) (.boolLiteral (op = .eq)) := by
  subst same
  obtain ⟨leftType, leftTyped, rest⟩ := Option.bind_eq_some_iff.mp typed
  obtain ⟨rightType, rightTyped, checked⟩ := Option.bind_eq_some_iff.mp rest
  have isBool : type = .bool := by
    rcases equality with rfl | rfl <;> simp [checkTypePrimOp2] at checked <;>
      exact checked.2.symm
  refine ⟨trivial, ?_, by rw [typed, isBool]; rfl, ?_⟩
  · intro env
    obtain ⟨v, evaluates, -⟩ := eval_total env lhs leftType leftTyped
    have other : eval env rhs = some v := by
      rw [← right.sameEval env, left.sameEval env, evaluates]
    cases v <;> rcases equality with rfl | rfl <;>
      simp [eval, evaluates, other, evalPrimOp2, intOperator, comparison, boolOperator]
  · simp only [resolveToIntLiteral, constantValue]
    split <;> rcases equality with rfl | rfl <;> simp [constantOperator2]

end Identities

/-- `fold_simplify_math` on operands that are not both constant: an identity that
holds, or `NULL` on an expression that has no constant value. -/
theorem foldSimplifyMath_folded {op : PrimOpTag} {lhs rhs newLhs newRhs : Node}
    {type : ScalarType} (left : Folded lhs newLhs) (right : Folded rhs newRhs)
    (typed : typeOf (.primOp2 op lhs rhs) = some type)
    (notBoth : constantValue lhs = none ∨ constantValue rhs = none) :
    (∃ folded, foldSimplifyMath op newLhs newRhs = .ok (some folded) ∧
        Folded (.primOp2 op lhs rhs) folded) ∨
      foldSimplifyMath op newLhs newRhs = .ok none ∧
        constantValue (.primOp2 op lhs rhs) = none := by
  have rightVariable : ∀ t c, constantValue lhs = some (t, c) → constantValue rhs = none :=
    fun t c constant => notBoth.resolve_left (by simp [constant])
  have leftVariable : ∀ t c, constantValue rhs = some (t, c) → constantValue lhs = none :=
    fun t c constant => notBoth.resolve_right (by simp [constant])
  have opaque_ : op ≠ .mul → constantValue (.primOp2 op lhs rhs) = none := by
    intro notMul
    rcases notBoth with none_ | none_
    · cases constant : constantValue rhs <;> simp [constantValue, none_, constant, notMul]
    · cases constant : constantValue lhs <;> simp [constantValue, none_, constant, notMul]
  cases op with
  | add =>
      have opaque_ := opaque_ (by decide)
      simp only [foldSimplifyMath]
      split_ifs with leftZero rightZero
      · obtain ⟨t, zero⟩ := left.isZero_iff.mp leftZero
        exact Or.inl ⟨_, rfl, folded_neutral_left (by simp) left right typed zero
          (rightVariable t 0 zero) opaque_ (by simp [intOperator])⟩
      · obtain ⟨t, zero⟩ := right.isZero_iff.mp rightZero
        exact Or.inl ⟨_, rfl, folded_neutral_right (by simp) left right typed
          (leftVariable t 0 zero) zero opaque_ (by simp [intOperator])⟩
      · exact Or.inr ⟨rfl, opaque_⟩
  | sub =>
      have opaque_ := opaque_ (by decide)
      simp only [foldSimplifyMath]
      split_ifs with rightZero leftZero
      · obtain ⟨t, zero⟩ := right.isZero_iff.mp rightZero
        exact Or.inl ⟨_, rfl, folded_neutral_right (by simp) left right typed
          (leftVariable t 0 zero) zero opaque_ (by simp [intOperator])⟩
      · obtain ⟨t, zero⟩ := left.isZero_iff.mp leftZero
        obtain ⟨created, folded⟩ :=
          folded_sub_zero_left left right typed zero (rightVariable t 0 zero)
        exact Or.inl ⟨_, by rw [created]; rfl, folded⟩
      · exact Or.inr ⟨rfl, opaque_⟩
  | mul =>
      simp only [foldSimplifyMath]
      split_ifs with leftZero rightZero leftOne rightOne
      · obtain ⟨t, zero⟩ := left.isZero_iff.mp leftZero
        exact Or.inl ⟨_, rfl,
          folded_mul_zero_left left typed zero (rightVariable t 0 zero)⟩
      · obtain ⟨t, zero⟩ := right.isZero_iff.mp rightZero
        exact Or.inl ⟨_, rfl,
          folded_mul_zero_right right typed (leftVariable t 0 zero) zero⟩
      · obtain ⟨t, one⟩ := left.isOne_iff.mp leftOne
        have variable_ := rightVariable t 1 one
        exact Or.inl ⟨_, rfl, folded_neutral_left (by simp) left right typed one variable_
          (by simp [constantValue, one, variable_]) (by simp [intOperator])⟩
      · obtain ⟨t, one⟩ := right.isOne_iff.mp rightOne
        have variable_ := leftVariable t 1 one
        exact Or.inl ⟨_, rfl, folded_neutral_right (by simp) left right typed variable_ one
          (by simp [constantValue, one, variable_]) (by simp [intOperator])⟩
      · refine Or.inr ⟨rfl, ?_⟩
        have leftNonzero : ∀ t x, constantValue lhs = some (t, x) → x ≠ 0 := by
          rintro t x constant rfl
          exact leftZero (left.isZero_iff.mpr ⟨t, constant⟩)
        have rightNonzero : ∀ t y, constantValue rhs = some (t, y) → y ≠ 0 := by
          rintro t y constant rfl
          exact rightZero (right.isZero_iff.mpr ⟨t, constant⟩)
        rcases notBoth with none_ | none_
        · cases constant : constantValue rhs with
          | none => simp [constantValue, none_, constant]
          | some pair =>
              simp [constantValue, none_, constant, rightNonzero pair.1 pair.2 constant]
        · cases constant : constantValue lhs with
          | none => simp [constantValue, none_, constant]
          | some pair =>
              simp [constantValue, none_, constant, leftNonzero pair.1 pair.2 constant]
  | div =>
      have opaque_ := opaque_ (by decide)
      simp only [foldSimplifyMath]
      split_ifs with rightOne
      · obtain ⟨t, one⟩ := right.isOne_iff.mp rightOne
        exact Or.inl ⟨_, rfl, folded_neutral_right (by simp) left right typed
          (leftVariable t 1 one) one opaque_ (by simp [intOperator])⟩
      · exact Or.inr ⟨rfl, opaque_⟩
  | eq =>
      simp only [foldSimplifyMath]
      split_ifs with same
      · exact Or.inl ⟨_, rfl, folded_same_operands left right same (by simp) typed⟩
      · exact Or.inr ⟨rfl, opaque_ (by decide)⟩
  | neq =>
      simp only [foldSimplifyMath]
      split_ifs with same
      · exact Or.inl ⟨_, rfl, folded_same_operands left right same (by simp) typed⟩
      · exact Or.inr ⟨rfl, opaque_ (by decide)⟩
  | _ => exact Or.inr ⟨rfl, opaque_ (by decide)⟩

/-- Outside the five arithmetic operators only the self-comparisons are simplified. -/
theorem foldSimplifyMath_other {op : PrimOpTag} {lhs rhs newLhs newRhs : Node}
    {type : ScalarType} (left : Folded lhs newLhs) (right : Folded rhs newRhs)
    (typed : typeOf (.primOp2 op lhs rhs) = some type)
    (other : ¬ (op = .add ∨ op = .sub ∨ op = .mul ∨ op = .div ∨ op = .mod)) :
    (∃ folded, foldSimplifyMath op newLhs newRhs = .ok (some folded) ∧
        Folded (.primOp2 op lhs rhs) folded) ∨
      foldSimplifyMath op newLhs newRhs = .ok none := by
  cases op with
  | add => simp at other
  | sub => simp at other
  | mul => simp at other
  | div => simp at other
  | eq =>
      simp only [foldSimplifyMath]
      split_ifs with same
      · exact Or.inl ⟨_, rfl, folded_same_operands left right same (by simp) typed⟩
      · exact Or.inr rfl
  | neq =>
      simp only [foldSimplifyMath]
      split_ifs with same
      · exact Or.inl ⟨_, rfl, folded_same_operands left right same (by simp) typed⟩
      · exact Or.inr rfl
  | _ => exact Or.inr rfl

/-- The folder's literal for two constant operands. -/
theorem foldConstantMath_literal2 (op : PrimOpTag) {lhs rhs newLhs newRhs : Node}
    {int : IntType} {x y : Int} (left : Folded lhs newLhs) (right : Folded rhs newRhs)
    (leftConstant : constantValue lhs = some (int, x))
    (rightConstant : constantValue rhs = some (int, y)) :
    match constantOperator2 op x y with
    | some z => ∃ field,
        foldConstantMath op [] [newLhs, newRhs] =
          .ok (some (.intLiteral ⟨int.width, int.isSigned, field⟩)) ∧
        ((field.toNat : Int) = int.pattern z ↔ HostExact2 op int x y)
    | none =>
        foldConstantMath op [] [newLhs, newRhs] = .ok none ∨
          foldConstantMath op [] [newLhs, newRhs] = .error .divisionByZero ∧
            ¬ HostExact2 op int x y := by
  obtain ⟨leftResolved, leftHolds⟩ := left.resolves leftConstant
  obtain ⟨rightResolved, rightHolds⟩ := right.resolves rightConstant
  have both : [newLhs, newRhs].mapM resolveToIntLiteral =
      some [canonicalLiteral int x, canonicalLiteral int y] := by
    simp [leftResolved, rightResolved]
  have host := hostBinary_exact op int x y leftHolds rightHolds
  cases operated : constantOperator2 op x y with
  | some z =>
      rw [operated] at host
      obtain ⟨field, computed, fieldExact⟩ := host
      refine ⟨field, ?_, fieldExact⟩
      simp only [foldConstantMath, both, computed]
      rfl
  | none =>
      rw [operated] at host
      rcases host with notFolded | ⟨faults, inexact⟩
      · exact Or.inl (by simp only [foldConstantMath, both, notFolded])
      · refine Or.inr ⟨?_, inexact⟩
        simp only [foldConstantMath, both, faults]
        rfl

/-- An operator outside the five is never folded by `fold_constant_math`. -/
theorem foldConstantMath_other {op : PrimOpTag} (lhs rhs : Node)
    (other : ¬ (op = .add ∨ op = .sub ∨ op = .mul ∨ op = .div ∨ op = .mod)) :
    foldConstantMath op [] [lhs, rhs] = .ok none := by
  have noHost : ∀ left right, hostBinary op left right = none := by
    intro left right
    cases op <;> simp_all [hostBinary]
  unfold foldConstantMath
  split
  · rfl
  · rename_i first resolved
    have lengths := literals_length _ _ resolved
    simp at lengths
  · simp only [noHost]
  · rfl

theorem constantValue_other {op : PrimOpTag} (lhs rhs : Node)
    (other : ¬ (op = .add ∨ op = .sub ∨ op = .mul ∨ op = .div ∨ op = .mod)) :
    constantValue (.primOp2 op lhs rhs) = none := by
  have noOperator : ∀ x y, constantOperator2 op x y = none := by
    intro x y
    cases op <;> simp_all [constantOperator2]
  have notMul : op ≠ .mul := fun mul => other (by simp [mul])
  simp only [constantValue]
  split <;> simp [noOperator, notMul]

/-- Node creation for two operands whose own folding is right. -/
theorem createPrimOp2_folded (op : PrimOpTag) {lhs rhs newLhs newRhs : Node}
    (type : ScalarType) (left : Folded lhs newLhs) (right : Folded rhs newRhs)
    (typed : typeOf (.primOp2 op lhs rhs) = some type)
    (exactHere : HostExactAt (.primOp2 op lhs rhs)) :
    ∃ folded, createPrimOp2 op newLhs newRhs = .ok folded ∧
      Folded (.primOp2 op lhs rhs) folded := by
  by_cases arith : op = .add ∨ op = .sub ∨ op = .mul ∨ op = .div ∨ op = .mod
  · obtain ⟨int, leftTyped, rightTyped, rfl⟩ := arith_types arith typed
    by_cases notBoth : constantValue lhs = none ∨ constantValue rhs = none
    · have notFolded : foldConstantMath op [] [newLhs, newRhs] = .ok none := by
        rcases notBoth with none_ | none_
        · exact foldConstantMath_unresolved op [] [] [newRhs] (left.unresolved none_)
        · exact foldConstantMath_unresolved op [] [newLhs] [] (right.unresolved none_)
      rcases foldSimplifyMath_folded left right typed notBoth with
        ⟨folded, simplified, keeps⟩ | ⟨simplified, opaque_⟩
      · exact ⟨folded, by simp only [createPrimOp2, notFolded, simplified]; rfl, keeps⟩
      · exact ⟨_, by simp only [createPrimOp2, notFolded, simplified]; rfl,
          folded_primOp2 op left right opaque_⟩
    · obtain ⟨⟨leftInt, x⟩, leftConstant⟩ :=
        Option.ne_none_iff_exists'.mp (not_or.mp notBoth).1
      obtain ⟨⟨rightInt, y⟩, rightConstant⟩ :=
        Option.ne_none_iff_exists'.mp (not_or.mp notBoth).2
      obtain rfl : leftInt = int := by
        simpa [leftTyped] using (left.constant_type leftConstant).symm
      obtain rfl : rightInt = leftInt := by
        simpa [rightTyped] using (right.constant_type rightConstant).symm
      have here := exactHere _ x _ y leftConstant rightConstant
      have fold := foldConstantMath_literal2 op left right leftConstant rightConstant
      cases operated : constantOperator2 op x y with
      | some z =>
          rw [operated] at fold
          obtain ⟨field, created, fieldExact⟩ := fold
          have literal := eq_canonical_of_field
            ((IntType.pattern_wrap rightInt z).symm ▸ fieldExact.mpr here)
          refine ⟨.intLiteral (canonicalLiteral rightInt (rightInt.wrap z)), ?_, ?_⟩
          · simp only [createPrimOp2, created, literal]
            rfl
          · refine folded_literal (rightInt.holds_wrap z)
              (by simp [constantValue, leftConstant, rightConstant, operated]) typed ?_
            intro env
            simp [eval, left.constant_eval leftConstant env,
              right.constant_eval rightConstant env,
              constantOperator2_eval env rightInt rightInt operated]
      | none =>
          -- only a zero divisor leaves the five operators without a constant
          exfalso
          rcases arith with rfl | rfl | rfl | rfl | rfl <;>
            simp_all [constantOperator2, HostExact2]
  · have notFolded := foldConstantMath_other newLhs newRhs arith
    rcases foldSimplifyMath_other left right typed arith with
      ⟨folded, simplified, keeps⟩ | simplified
    · exact ⟨folded, by simp only [createPrimOp2, notFolded, simplified]; rfl, keeps⟩
    · exact ⟨_, by simp only [createPrimOp2, notFolded, simplified]; rfl,
        folded_primOp2 op left right (constantValue_other lhs rhs arith)⟩

/-- No three-operand node is folded. -/
theorem createPrimOp3_plain (op : PrimOpTag) (first second third : Node) :
    createPrimOp3 op first second third = .ok (.primOp3 op first second third) := by
  have notFolded : foldConstantMath op [] [first, second, third] = .ok none := by
    unfold foldConstantMath
    split
    · rfl
    · rename_i lit resolved
      have lengths := literals_length _ _ resolved
      simp at lengths
    · rename_i lit last resolved
      have lengths := literals_length _ _ resolved
      simp at lengths
    · rfl
  simp only [createPrimOp3, notFolded]
  rfl

end Shady
