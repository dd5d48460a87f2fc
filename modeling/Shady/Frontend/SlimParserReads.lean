import Shady.Frontend.SlimTypesRead

/-!
# Expressions are read as they are written

A text of the grammar is read as its tree: a value and a primary expression whatever follows, the
text of an operator where no tighter operator follows. The loop of `accept_expr` reaches the tree of
each left operand on its way.
-/

set_option autoImplicit false

namespace Shady.Slim.Parser

open Fuelled

variable {frontEnd bb : Bool}

/-- The loop goes on with a call or with an operator of a place. -/
def Continues (place : Int) (tokens : List Lexeme) : Prop :=
  ∃ t rest, tokens = .word t :: rest ∧
    (t = .lparTok ∨ ∃ op : InfixOperator, op.token = t ∧ op.precedence ≤ place)

@[simp] theorem isInfixOperator_token (op : InfixOperator) :
    isInfixOperator op.token = some op := by
  cases op <;> rfl

theorem token_of_isInfixOperator {t : TokenTag} {op : InfixOperator}
    (found : isInfixOperator t = some op) : op.token = t := by
  cases t <;> cases found <;> rfl

@[simp] theorem isUnaryOperator_token (op : UnaryOperator) :
    isUnaryOperator op.token = some op := by
  cases op <;> rfl

theorem token_of_isUnaryOperator {t : TokenTag} {op : UnaryOperator}
    (found : isUnaryOperator t = some op) : op.token = t := by
  cases t <;> cases found <;> rfl

theorem precedence_bounds (op : InfixOperator) : 0 ≤ op.precedence ∧ op.precedence ≤ 10 := by
  cases op <;> decide

theorem Syn.level_bounds (s : Syn) : -3 ≤ s.level ∧ s.level ≤ 10 := by
  cases s with
  | binary op lhs rhs =>
      have bounds := precedence_bounds op
      exact ⟨Int.le_trans (by decide) bounds.1, bounds.2⟩
  | _ => simp [Syn.level]

/-- No operator ends an operand. -/
theorem token_ne_closing (op : InfixOperator) :
    op.token ≠ .commaTok ∧ op.token ≠ .rparTok ∧ op.token ≠ .lparTok := by
  cases op <;> decide

/-- Nothing goes on at the end of an operand. -/
theorem not_continues_of_closing {place : Int} {tokens : List Lexeme}
    (closed : ∃ t rest, tokens = .word t :: rest ∧ (t = .commaTok ∨ t = .rparTok)) :
    ¬ Continues place tokens := by
  rintro ⟨t, rest, same, goesOn⟩
  obtain ⟨t', rest', same', closing⟩ := closed
  cases same.symm.trans same'
  cases goesOn with
  | inl call =>
      rw [call] at closing
      cases closing with
      | inl comma => cases comma
      | inr rpar => cases rpar
  | inr op =>
      obtain ⟨op, token, -⟩ := op
      have apart := token_ne_closing op
      cases closing with
      | inl comma => exact apart.1 (token.trans comma)
      | inr rpar => exact apart.2.1 (token.trans rpar)

/-- The loop of an outer operator ends where nothing goes on. -/
theorem exprLoop_stops {outer : Int} {tokens : List Lexeme} (stops : ¬ Continues outer tokens)
    (expr : Expr) :
    Settles (fun fuel => exprLoop frontEnd bb fuel outer expr tokens)
      (.ok (some expr, tokens)) := by
  refine .of_succ ?_
  cases tokens with
  | nil => exact .const _
  | cons first rest =>
      cases first with
      | word t =>
          cases found : isInfixOperator t with
          | none =>
              have noCall : t ≠ .lparTok := fun call => stops ⟨t, rest, rfl, .inl call⟩
              simp only [exprLoop, found, if_neg noCall]
              exact .const _
          | some op =>
              have looser : op.precedence > outer := by
                by_contra tighter
                exact stops ⟨t, rest, rfl, .inr ⟨op, token_of_isInfixOperator found, by omega⟩⟩
              simp only [exprLoop, found, if_pos looser]
              exact .const _
      | _ => exact .const _

/-- How a text of the grammar is read at each of the places where it may stand. -/
structure Readable (frontEnd bb : Bool) (s : Syn) : Prop where
  value : s.level = -3 → Reads (acceptValue frontEnd bb) s.text (some s.tree)
  primary : bb = true → s.level ≤ -2 → s.signed = false →
    Reads (acceptPrimaryExpr frontEnd bb) s.text (some s.tree)
  expr : bb = true → s.signed = false → ∀ outer, s.level ≤ outer → ∀ rest,
    (0 ≤ s.level → ¬ Continues (s.level - 1) rest) → ∀ result,
    Settles (fun fuel => exprLoop frontEnd bb fuel outer s.tree rest) result →
      Settles (fun fuel => acceptExpr frontEnd bb fuel outer (s.text ++ rest)) result

/-- A primary expression comes first in an expression. -/
theorem expr_of_primary {text : List Lexeme} {tree : Expr}
    (reads : Reads (acceptPrimaryExpr frontEnd true) text (some tree)) {outer : Int}
    {rest : List Lexeme} {result : Except Failure (Parsed (Option Expr))}
    (loop : Settles (fun fuel => exprLoop frontEnd true fuel outer tree rest) result) :
    Settles (fun fuel => acceptExpr frontEnd true fuel outer (text ++ rest)) result := by
  refine .of_succ ?_
  simp only [acceptExpr, assertBuilder, if_true, ok_bind]
  exact reads.followed loop

/-- A text that begins with no unary operator. -/
def Unprefixed (text : List Lexeme) : Prop :=
  ∃ first tail, text = first :: tail ∧ ∀ t, first = .word t → isUnaryOperator t = none

/-- A value is a primary expression if it does not begin with an operator. -/
theorem primary_of_value {text : List Lexeme} {tree : Expr}
    (reads : Reads (acceptValue frontEnd true) text (some tree)) (unprefixed : Unprefixed text) :
    Reads (acceptPrimaryExpr frontEnd true) text (some tree) := by
  intro rest
  have read := reads rest
  refine .of_succ ?_
  obtain ⟨first, tail, rfl, noOperator⟩ := unprefixed
  cases first with
  | word t =>
      simp only [acceptPrimaryExpr, assertBuilder, if_true, ok_bind, List.cons_append,
        noOperator t rfl]
      exact read
  | _ =>
      simp only [acceptPrimaryExpr, assertBuilder, if_true, ok_bind, List.cons_append]
      exact read

/-- What is read as a value is read everywhere. -/
theorem Readable.of_value {s : Syn}
    (reads : Reads (acceptValue frontEnd bb) s.text (some s.tree))
    (unprefixed : s.signed = false → Unprefixed s.text) : Readable frontEnd bb s where
  value _ := reads
  primary builds _ unsigned := by
    subst builds
    exact primary_of_value reads (unprefixed unsigned)
  expr builds unsigned outer _ rest _ result loop := by
    subst builds
    exact expr_of_primary (primary_of_value reads (unprefixed unsigned)) loop

/-! ## Operands -/

/-- An operand is read up to the end of it. -/
theorem Readable.operand {s : Syn} (readable : Readable frontEnd bb s)
    (builds : frontEnd = true → bb = true) (fits : Fits (operandPlace frontEnd) s)
    {rest : List Lexeme}
    (closed : ∃ t more, rest = .word t :: more ∧ (t = .commaTok ∨ t = .rparTok)) :
    Settles (fun fuel => acceptOperand frontEnd bb fuel (s.text ++ rest))
      (.ok (some s.tree, rest)) := by
  refine .of_succ ?_
  cases frontEnd with
  | true =>
      simp only [acceptOperand, if_true]
      refine readable.expr (builds rfl) (fits.unsigned (by decide)) maxPrecedence fits.level rest
        (fun _ => not_continues_of_closing closed) _ ?_
      exact exprLoop_stops (not_continues_of_closing closed) s.tree
  | false =>
      simp only [acceptOperand, Bool.false_eq_true, if_false]
      exact readable.value (le_antisymm fits.level s.level_bounds.1) rest

theorem Readable.expectOperand {s : Syn} (readable : Readable frontEnd bb s)
    (builds : frontEnd = true → bb = true) (fits : Fits (operandPlace frontEnd) s)
    {rest : List Lexeme}
    (closed : ∃ t more, rest = .word t :: more ∧ (t = .commaTok ∨ t = .rparTok)) :
    Settles (fun fuel => expectOperand frontEnd bb fuel (s.text ++ rest))
      (.ok (s.tree, rest)) := by
  refine .of_succ ?_
  simp only [Parser.expectOperand]
  exact (readable.operand builds fits closed).bind (.const _)

/-- Behind an operand another one comes, or the end of the list. -/
theorem elementsText_closes (ops : List Syn) (rest : List Lexeme) :
    ∃ t more, elementsText ops ++ rest = .word t :: more ∧ (t = .commaTok ∨ t = .rparTok) := by
  cases ops with
  | nil => exact ⟨_, _, rfl, .inr rfl⟩
  | cons s ops => exact ⟨_, _, rfl, .inl rfl⟩

section Lists

variable {ops : List Syn} (builds : frontEnd = true → bb = true)
include builds

theorem tupleElements_reads :
    ∀ {ops : List Syn}, (∀ s ∈ ops, Fits (operandPlace frontEnd) s) →
      (∀ s ∈ ops, Readable frontEnd bb s) →
      Reads (tupleElements frontEnd bb) (elementsText ops) (trees ops) := by
  intro ops
  induction ops with
  | nil =>
      intro _ _ rest
      refine .of_succ ?_
      exact .const _
  | cons s ops ih =>
      intro fits readable rest
      have further := ih (fun s held => fits s (List.mem_cons_of_mem _ held))
        (fun s held => readable s (List.mem_cons_of_mem _ held))
      refine .of_succ ?_
      simp only [tupleElements, elementsText, List.cons_append, List.append_assoc, acceptToken,
        reduceCtorEq, if_false, expectToken_same, ok_bind]
      refine ((readable s List.mem_cons_self).expectOperand builds (fits s List.mem_cons_self)
        (elementsText_closes ops rest)).bind ?_
      exact further.followed (.const _)

theorem operandsFrom_reads : ∀ {ops : List Syn} (s : Syn) (expect : Bool),
      (∀ o ∈ s :: ops, Fits (operandPlace frontEnd) o) →
      (∀ o ∈ s :: ops, Readable frontEnd bb o) →
      Reads (operandsFrom frontEnd bb expect) (s.text ++ elementsText ops) (trees (s :: ops)) := by
  intro ops
  induction ops with
  | nil =>
      intro s expect fits readable rest
      refine .of_succ ?_
      simp only [operandsFrom, List.append_assoc]
      refine ((readable s List.mem_cons_self).operand builds (fits s List.mem_cons_self)
        (elementsText_closes [] rest)).bind ?_
      exact .const _
  | cons next ops ih =>
      intro s expect fits readable rest
      have further := ih next true (fun s held => fits s (List.mem_cons_of_mem _ held))
        (fun s held => readable s (List.mem_cons_of_mem _ held)) rest
      refine .of_succ ?_
      simp only [operandsFrom, List.append_assoc]
      refine ((readable s List.mem_cons_self).operand builds (fits s List.mem_cons_self)
        (elementsText_closes (next :: ops) rest)).bind ?_
      simp only [elementsText, List.cons_append, acceptToken_same]
      exact further.bind (.const _)

/-- No operand begins with a closing parenthesis. -/
theorem acceptOperand_rpar (rest : List Lexeme) :
    Settles (fun fuel => acceptOperand frontEnd bb fuel (.word .rparTok :: rest))
      (.ok (none, .word .rparTok :: rest)) := by
  have value : Settles (fun fuel => acceptValue frontEnd bb fuel (.word .rparTok :: rest))
      (.ok (none, .word .rparTok :: rest)) := .of_succ (.const _)
  refine .of_succ ?_
  cases frontEnd with
  | false => exact value
  | true =>
      cases builds rfl
      simp only [acceptOperand, if_true]
      refine .of_succ ?_
      simp only [acceptExpr, assertBuilder, if_true, ok_bind]
      refine Settles.bind (a := (none, .word .rparTok :: rest)) (.of_succ ?_) (.const _)
      exact value

theorem expectOperands_reads (fits : ∀ s ∈ ops, Fits (operandPlace frontEnd) s)
    (readable : ∀ s ∈ ops, Readable frontEnd bb s) :
    Reads (expectOperands frontEnd bb) (operandsText ops) (trees ops) := by
  intro rest
  refine .of_succ ?_
  cases ops with
  | nil =>
      simp only [expectOperands, operandsText, List.cons_append, List.nil_append,
        expectToken_same, ok_bind]
      refine .of_succ ?_
      exact (acceptOperand_rpar builds rest).bind (.const _)
  | cons s ops =>
      simp only [expectOperands, operandsText, List.cons_append, expectToken_same, ok_bind]
      exact operandsFrom_reads builds s false fits readable rest

end Lists

/-! ## Values -/

/-- What comes behind the name of an op, and behind three other names. -/
theorem acceptValue_head {id : String} {head : Head} (named : headNamed id = some head)
    {text : List Lexeme} {e : Option Expr} (reads : Reads (headed frontEnd bb head) text e) :
    Reads (acceptValue frontEnd bb) (.identifier id :: text) e := by
  have step : ∀ fuel tokens, acceptValue frontEnd bb (fuel + 1) (.identifier id :: tokens) =
      headed frontEnd bb head fuel tokens := by
    intro fuel tokens
    have noNumber : acceptNumericalLiteral (.identifier id :: tokens) =
        .ok (none, .identifier id :: tokens) := rfl
    simp only [acceptValue, noNumber, ok_bind]
    split
    · next free => cases free.symm.trans named
    · next head' named' => rw [Option.some.inj (named'.symm.trans named)]
  intro rest
  refine .of_succ ?_
  simp only [List.cons_append, step]
  exact reads rest

theorem headNamed_primopName (op : PrimitiveOp) : headNamed op.primopName = some (.primOp op) := by
  cases op <;> decide +kernel

theorem headNamed_extInstr : headNamed "ext_instr" = some .extInstr := by decide +kernel

theorem headNamed_alloca : headNamed "alloca" = some .alloca := by decide +kernel

theorem headNamed_debugPrintf : headNamed "debug_printf" = some .debugPrintf := by decide +kernel

/-- Operands begin with a parenthesis. -/
theorem operandsText_eq (ops : List Syn) :
    ∃ more, operandsText ops = .word .lparTok :: more := by
  cases ops with
  | nil => exact ⟨_, rfl⟩
  | cons s ops => exact ⟨_, rfl⟩

theorem Leaf.text_unprefixed {leaf : Leaf} (unsigned : leaf.signed = false) :
    Unprefixed leaf.text := by
  cases leaf with
  | number n =>
      cases n with
      | mk type literal =>
          cases type with
          | some type =>
              refine ⟨.word type.token, literal.text, rfl, fun t same => ?_⟩
              cases same
              cases type <;> rfl
          | none =>
              cases literal with
              | dec negative digits =>
                  cases (show negative = false from unsigned)
                  exact ⟨_, _, rfl, fun t same => by cases same⟩
              | hex digits => exact ⟨_, _, rfl, fun t same => by cases same⟩
  | unbound id => exact ⟨_, _, rfl, fun t same => by cases same⟩
  | string text => exact ⟨_, _, rfl, fun t same => by cases same⟩
  | _ =>
      refine ⟨_, _, rfl, fun t same => ?_⟩
      cases same
      rfl

theorem Syn.text_opens (s : Syn) : Opens s.text := by
  induction s using Syn.rec (motive_2 := fun _ => True) with
  | leaf l => exact l.text_opens
  | binary op lhs rhs lhsOpens _ => exact lhsOpens.append _
  | call callee args calleeOpens _ => exact calleeOpens.append _
  | unary op operand _ => exact ⟨_, _, rfl, by cases op <;> rfl⟩
  | nil => trivial
  | cons => trivial
  | _ => exact ⟨_, _, rfl, rfl⟩

section Values

variable (builds : frontEnd = true → bb = true)
include builds

theorem paren_reads {inside : Syn} (fits : Fits (operandPlace frontEnd) inside)
    (readable : Readable frontEnd bb inside) :
    Reads (acceptValue frontEnd bb) (Syn.paren inside).text (some inside.tree) := by
  intro rest
  have opens := inside.text_opens.append ([.word .rparTok] ++ rest)
  refine .of_succ (.of_succ ?_)
  change Settles (fun fuel => parenthesised frontEnd bb (fuel + 1)
    ((inside.text ++ [.word .rparTok]) ++ rest)) _
  simp only [parenthesised, List.append_assoc, acceptToken_of_opens .rparTok rfl opens]
  exact (readable.expectOperand builds fits ⟨_, _, rfl, .inr rfl⟩).bind (.const _)

theorem tuple_reads {first second : Syn} {rest : List Syn}
    (fits : ∀ s ∈ first :: second :: rest, Fits (operandPlace frontEnd) s)
    (readable : ∀ s ∈ first :: second :: rest, Readable frontEnd bb s) :
    Reads (acceptValue frontEnd bb) (Syn.tuple first second rest).text
      (some (Syn.tuple first second rest).tree) := by
  intro following
  have inFirst : first ∈ first :: second :: rest := List.mem_cons_self
  have inSecond : second ∈ first :: second :: rest := List.mem_cons_of_mem _ List.mem_cons_self
  have opens := first.text_opens.append
    (.word .commaTok :: (second.text ++ (elementsText rest ++ following)))
  have elements : Reads (tupleElements frontEnd bb) (elementsText rest) (trees rest) :=
    tupleElements_reads builds
    (fun s held => fits s (List.mem_cons_of_mem _ (List.mem_cons_of_mem _ held)))
    (fun s held => readable s (List.mem_cons_of_mem _ (List.mem_cons_of_mem _ held)))
  refine .of_succ (.of_succ ?_)
  change Settles (fun fuel => parenthesised frontEnd bb (fuel + 1)
    ((first.text ++ .word .commaTok :: (second.text ++ elementsText rest)) ++ following)) _
  simp only [parenthesised, List.append_assoc, List.cons_append,
    acceptToken_of_opens .rparTok rfl opens]
  refine ((readable first inFirst).expectOperand builds (fits first inFirst)
    ⟨_, _, rfl, .inl rfl⟩).bind ?_
  simp only [acceptToken, reduceCtorEq, if_false, expectToken_same, ok_bind]
  refine ((readable second inSecond).expectOperand builds (fits second inSecond)
    (elementsText_closes rest following)).bind ?_
  exact elements.followed (.const _)

theorem composite_reads {type : SlimType} {contents : List Syn} (typed : type.Formed frontEnd)
    (fits : ∀ s ∈ contents, Fits (operandPlace frontEnd) s)
    (readable : ∀ s ∈ contents, Readable frontEnd bb s) :
    Reads (acceptValue frontEnd bb) (Syn.composite type contents).text
      (some (Syn.composite type contents).tree) := by
  intro rest
  refine .of_succ ?_
  have noNumber : ∀ tokens, acceptNumericalLiteral (.word .compositeTok :: tokens) =
      .ok (none, .word .compositeTok :: tokens) := fun _ => rfl
  simp only [Syn.text, List.cons_append, List.append_assoc, acceptValue, noNumber, ok_bind]
  refine (type.reads typed).followed ?_
  simp only [expectNode_some, ok_bind]
  exact (expectOperands_reads builds fits readable).followed (.const _)

end Values

theorem primOp_reads {op : PrimitiveOp} {types : TypeArguments} {operands : List Syn}
    (typed : ∀ type ∈ types.types, type.Formed frontEnd)
    (fits : ∀ s ∈ operands, Fits (operandPlace frontEnd) s)
    (readable : ∀ s ∈ operands, Readable frontEnd true s) :
    Reads (acceptValue frontEnd true) (Syn.primOp op types operands).text
      (some (Syn.primOp op types operands).tree) := by
  obtain ⟨more, begins⟩ := operandsText_eq operands
  refine acceptValue_head (headNamed_primopName op) fun rest => .of_succ ?_
  have typesRead := TypeArguments.reads typed (more ++ rest)
  simp only [headed, Bool.not_true, Bool.false_eq_true, if_false, List.append_assoc, begins,
    List.cons_append]
  refine typesRead.bind ?_
  have operandsRead := expectOperands_reads (fun _ => rfl) fits readable rest
  rw [begins] at operandsRead
  exact operandsRead.bind (.const _)

theorem stackAlloc_reads {first : SlimType} {further : List (Bool × SlimType)}
    (typed : ∀ type ∈ (TypeArguments.brackets first further).types, type.Formed frontEnd) :
    Reads (acceptValue frontEnd true) (Syn.stackAlloc first further).text
      (some (.stackAlloc first)) := by
  have operandsRead : Reads (expectOperands frontEnd true) (operandsText []) (trees []) :=
    expectOperands_reads (fun _ => rfl) (fun s held => by cases held) (fun s held => by cases held)
  refine acceptValue_head headNamed_alloca fun rest => .of_succ ?_
  have typesRead := TypeArguments.reads typed (.word .rparTok :: rest)
  simp only [headed, List.append_assoc, List.cons_append, List.nil_append]
  refine typesRead.bind ?_
  simp only [TypeArguments.types, Parser.first, ok_bind]
  exact (operandsRead rest).bind (.const _)

theorem debugPrintf_reads {format : Syn} {args : List Syn}
    (isString : ¬ format.tree.IsComposite)
    (fits : ∀ s ∈ format :: args, Fits (operandPlace frontEnd) s)
    (readable : ∀ s ∈ format :: args, Readable frontEnd true s) :
    Reads (acceptValue frontEnd true) (Syn.debugPrintf format args).text
      (some (Syn.debugPrintf format args).tree) := by
  have operandsRead := expectOperands_reads (fun _ => rfl) fits readable
  have literal : getStringLiteral format.tree = .ok () := by
    rw [getStringLiteral.eq_def]
    split
    · next same => exact absurd (same ▸ trivial) isString
    · next same => exact absurd (same ▸ trivial) isString
    · next same => exact absurd (same ▸ trivial) isString
    · rfl
  refine acceptValue_head headNamed_debugPrintf fun rest => .of_succ ?_
  simp only [headed]
  refine (operandsRead rest).bind ?_
  simp only [trees, Parser.first, ok_bind, literal, assertBuilder, if_true]
  exact .const _

theorem expectString_eq {e : Expr} (isString : e.IsString) :
    expectString (some e) = .ok e := by
  cases e with
  | leaf leaf =>
      cases leaf with
      | string text => rfl
      | _ => exact isString.elim
  | _ => exact isString.elim

theorem expectUntypedNumber_eq {e : Expr} (isNumber : e.IsUntypedNumber) :
    expectUntypedNumber (some e) = .ok e := by
  cases e with
  | leaf leaf =>
      cases leaf with
      | number n =>
          cases n with
          | mk type literal =>
              cases type with
              | none => rfl
              | some type => exact isNumber.elim
      | _ => exact isNumber.elim
  | _ => exact isNumber.elim

theorem extInstr_reads {set opcode : Syn} {resultType : QualifiedType} {operands : List Syn}
    (setReads : Reads (acceptValue frontEnd false) set.text (some set.tree))
    (isString : set.tree.IsString)
    (opcodeReads : Reads (acceptValue frontEnd false) opcode.text (some opcode.tree))
    (isNumber : opcode.tree.IsUntypedNumber) (typed : resultType.type.Formed frontEnd)
    (fits : ∀ s ∈ operands, Fits (operandPlace frontEnd) s)
    (readable : ∀ s ∈ operands, Readable frontEnd true s) :
    Reads (acceptValue frontEnd true) (Syn.extInstr set opcode resultType operands).text
      (some (Syn.extInstr set opcode resultType operands).tree) := by
  have operandsRead := expectOperands_reads (fun _ => rfl) fits readable
  refine acceptValue_head headNamed_extInstr fun rest => .of_succ ?_
  simp only [headed, List.append_assoc, List.cons_append, expectToken_same, ok_bind]
  refine setReads.followed ?_
  simp only [expectString_eq isString, ok_bind, expectToken_same]
  refine opcodeReads.followed ?_
  simp only [expectUntypedNumber_eq isNumber, ok_bind, expectToken_same]
  refine (resultType.reads typed).followed ?_
  simp only [expectToken_same, ok_bind]
  refine operandsRead.followed ?_
  simp only [assertBuilder, if_true, ok_bind]
  exact .const _

/-! ## Operators -/

theorem unary_reads {op : UnaryOperator} {operand : Syn}
    (reads : Reads (acceptPrimaryExpr frontEnd true) operand.text (some operand.tree)) :
    Reads (acceptPrimaryExpr frontEnd true) (Syn.unary op operand).text
      (some (Syn.unary op operand).tree) := by
  intro rest
  refine .of_succ ?_
  simp only [acceptPrimaryExpr, Syn.text, List.cons_append, isUnaryOperator_token, assertBuilder,
    if_true, ok_bind]
  exact reads.followed (.const _)

theorem Readable.unary {op : UnaryOperator} {operand : Syn}
    (readable : Readable frontEnd true operand) (fits : Fits (-2) operand) :
    Readable frontEnd true (.unary op operand) := by
  have reads : Reads (acceptPrimaryExpr frontEnd true) (Syn.unary op operand).text
      (some (Syn.unary op operand).tree) := unary_reads
    (readable.primary rfl fits.level (fits.unsigned (by decide)))
  exact {
    value := fun level => by cases level
    primary := fun _ _ _ => reads
    expr := fun _ _ _ _ _ _ _ loop => expr_of_primary reads loop }

theorem infixOperator_injective {op op' : InfixOperator} (same : op.token = op'.token) :
    op = op' := by
  have found := isInfixOperator_token op
  rw [same, isInfixOperator_token] at found
  exact (Option.some.inj found).symm

theorem Continues.mono {place place' : Int} {tokens : List Lexeme}
    (continues : Continues place tokens) (le : place ≤ place') : Continues place' tokens := by
  obtain ⟨t, rest, same, goesOn⟩ := continues
  refine ⟨t, rest, same, ?_⟩
  cases goesOn with
  | inl call => exact .inl call
  | inr op =>
      obtain ⟨op, token, tight⟩ := op
      exact .inr ⟨op, token, Int.le_trans tight le⟩

/-- The loop takes the left operand as far as its operator goes, then the operator. -/
theorem Readable.binary {op : InfixOperator} {lhs rhs : Syn}
    (lhsReadable : Readable frontEnd true lhs) (lhsFits : Fits op.precedence lhs)
    (rhsReadable : Readable frontEnd true rhs) (rhsFits : Fits (op.precedence - 1) rhs) :
    Readable frontEnd true (.binary op lhs rhs) := by
  have bounds := precedence_bounds op
  refine ⟨fun level => ?_, fun _ level _ => ?_, fun _ _ outer fits rest stops result loop => ?_⟩
  · rw [Syn.level] at level
    omega
  · rw [Syn.level] at level
    omega
  have within : op.precedence ≤ outer := fits
  have notTighter : ¬ Continues (op.precedence - 1) rest := stops bounds.1
  have rhsRead : Settles (fun fuel => acceptExpr frontEnd true fuel (op.precedence - 1)
      (rhs.text ++ rest)) (.ok (some rhs.tree, rest)) := by
    refine rhsReadable.expr rfl (rhsFits.unsigned (by omega)) _ rhsFits.level rest ?_ _ ?_
    · have level := rhsFits.level
      exact fun _ continues => notTighter (continues.mono (by omega))
    · exact exprLoop_stops notTighter rhs.tree
  rw [Syn.text, List.append_assoc, List.cons_append]
  refine lhsReadable.expr rfl (lhsFits.unsigned (by omega)) outer
    (Int.le_trans lhsFits.level within) _ ?_ result ?_
  · rintro - ⟨t, more, same, goesOn⟩
    cases same
    cases goesOn with
    | inl call => exact (token_ne_closing op).2.2 call
    | inr other =>
        obtain ⟨other, token, tight⟩ := other
        have level := lhsFits.level
        rw [infixOperator_injective token] at tight
        omega
  · refine .of_succ ?_
    simp only [exprLoop, isInfixOperator_token, if_neg (Int.not_lt.mpr within)]
    refine rhsRead.bind ?_
    simp only [expectNode_some, ok_bind]
    exact loop

theorem Readable.call {callee : Syn} {args : List Syn}
    (calleeReadable : Readable frontEnd true callee) (calleeFits : Fits (-1) callee)
    (fits : ∀ s ∈ args, Fits (operandPlace frontEnd) s)
    (readable : ∀ s ∈ args, Readable frontEnd true s) :
    Readable frontEnd true (.call callee args) := by
  have level := calleeFits.level
  refine ⟨fun isValue => ?_, fun _ isPrimary _ => ?_,
    fun _ _ outer fitsOuter rest _ result loop => ?_⟩
  · cases isValue
  · rw [Syn.level] at isPrimary
    omega
  have within : (-1 : Int) ≤ outer := fitsOuter
  rw [Syn.text, List.append_assoc]
  refine calleeReadable.expr rfl (calleeFits.unsigned (by decide)) outer (by omega) _
    (fun loose => by omega) result (.of_succ ?_)
  have argsRead := expectOperands_reads (fun _ => rfl) fits readable rest
  obtain ⟨more, begins⟩ := operandsText_eq args
  rw [begins] at argsRead ⊢
  have noOperator : isInfixOperator .lparTok = none := rfl
  simp only [exprLoop, List.cons_append, noOperator, if_true]
  exact argsRead.bind loop

/-- Every text of the grammar is read as its tree; by induction on how it is formed. -/
theorem Formed.readable {s : Syn} (formed : Formed frontEnd bb s) : Readable frontEnd bb s := by
  induction formed with
  | leaf => exact .of_value (Leaf.reads _ _) fun unsigned => Leaf.text_unprefixed unsigned
  | paren builds fits _ ih => exact .of_value (paren_reads builds fits ih) fun _ =>
      ⟨_, _, rfl, fun t same => by cases same; rfl⟩
  | tuple builds fits _ ih => exact .of_value (tuple_reads builds fits ih) fun _ =>
      ⟨_, _, rfl, fun t same => by cases same; rfl⟩
  | composite builds typed fits _ ih =>
      exact .of_value (composite_reads builds typed fits ih) fun _ =>
        ⟨_, _, rfl, fun t same => by cases same; rfl⟩
  | primOp typed fits _ ih => exact .of_value (primOp_reads typed fits ih) fun _ =>
      ⟨_, _, rfl, fun t same => by cases same⟩
  | extInstr setFits _ isString opcodeFits _ isNumber typed fits _ setRead opcodeRead ih =>
      refine .of_value (extInstr_reads (setRead.value ?_) isString (opcodeRead.value ?_) isNumber
        typed fits ih) fun _ => ⟨_, _, rfl, fun t same => by cases same⟩
      · exact le_antisymm setFits.level (Syn.level_bounds _).1
      · exact le_antisymm opcodeFits.level (Syn.level_bounds _).1
  | stackAlloc typed => exact .of_value (stackAlloc_reads typed) fun _ =>
      ⟨_, _, rfl, fun t same => by cases same⟩
  | debugPrintf isString fits _ ih =>
      exact .of_value (debugPrintf_reads isString fits ih) fun _ =>
        ⟨_, _, rfl, fun t same => by cases same⟩
  | unary fits _ ih => exact ih.unary fits
  | binary lhsFits _ rhsFits _ lhsRead rhsRead => exact lhsRead.binary lhsFits rhsRead rhsFits
  | call calleeFits _ fits _ calleeRead ih => exact calleeRead.call calleeFits fits ih

/-- An expression is read up to where nothing goes on. -/
theorem Formed.reads_expr {s : Syn} (formed : Formed frontEnd true s) {place : Int}
    (fits : Fits place s) (loose : -1 ≤ place) {rest : List Lexeme}
    (stops : ¬ Continues place rest) :
    Settles (fun fuel => acceptExpr frontEnd true fuel place (s.text ++ rest))
      (.ok (some s.tree, rest)) := by
  have level := fits.level
  refine formed.readable.expr rfl (fits.unsigned (by omega)) place level rest ?_ _ ?_
  · exact fun _ continues => stops (continues.mono (by omega))
  · exact exprLoop_stops stops s.tree

end Shady.Slim.Parser
