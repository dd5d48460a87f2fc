import Shady.Frontend.SlimTypesSound

/-!
# What is read is an expression of the grammar

The steps of soundness for values, operands and expressions. The loop of `accept_expr` keeps that
what it has read fits the outer precedence and does not bind looser than what follows.
-/

set_option autoImplicit false

namespace Shady.Slim.Parser

open Fallible

variable {frontEnd bb : Bool} {fuel : Nat} {tokens rest : List Lexeme}

theorem of_assertBuilder {done : PUnit} (ran : assertBuilder bb = .ok done) : bb = true := by
  cases bb with
  | true => rfl
  | false => cases ran

/-- A value fits everywhere where no operator is needed. -/
theorem Fits.value {s : Syn} (level : s.level = -3) : Fits (-3) s :=
  ⟨le_of_eq level, fun loose => absurd loose (lt_irrefl _)⟩

/-- One more operand in front of a list. -/
theorem Spells.cons {headTokens tailTokens whole headRest : List Lexeme} {e : Expr} {es : List Expr}
    {s : Syn} {ops : List Syn} {tailText listText : List Syn → List Lexeme}
    (head : Spells frontEnd bb (operandPlace frontEnd) headTokens e headRest s)
    (tail : SpellsAll frontEnd bb tailText tailTokens es rest ops)
    (text : whole = listText (s :: ops) ++ rest) :
    SpellsAll frontEnd bb listText whole (e :: es) rest (s :: ops) where
  formed := List.forall_mem_cons.mpr ⟨head.formed, tail.formed⟩
  fits := List.forall_mem_cons.mpr ⟨head.fits, tail.fits⟩
  trees := by rw [Parser.trees, head.tree, tail.trees]
  text := text

theorem SpellsAll.nil {whole : List Lexeme} {listText : List Syn → List Lexeme}
    (text : whole = listText [] ++ rest) : SpellsAll frontEnd bb listText whole [] rest [] where
  formed _ held := by cases held
  fits _ held := by cases held
  trees := rfl
  text := text

/-! ## Operands -/

theorem acceptOperand_sound (below : Below frontEnd fuel) {e : Expr}
    (ran : acceptOperand frontEnd bb fuel tokens = .ok (some e, rest)) :
    (frontEnd = true → bb = true) ∧
      ∃ s, Spells frontEnd bb (operandPlace frontEnd) tokens e rest s := by
  cases fuel with
  | zero => cases ran
  | succ fuel =>
      rw [acceptOperand] at ran
      cases frontEnd with
      | true =>
          have read := below.here.expr ran (by decide)
          cases read.1
          exact ⟨fun _ => rfl, read.2.1⟩
      | false => exact ⟨(fun isFrontEnd => by cases isFrontEnd), below.here.value ran⟩

theorem acceptOperand_none (below : Below frontEnd fuel)
    (ran : acceptOperand frontEnd bb fuel tokens = .ok (none, rest)) :
    (frontEnd = true → bb = true) ∧ rest = tokens := by
  cases fuel with
  | zero => cases ran
  | succ fuel =>
      rw [acceptOperand] at ran
      cases frontEnd with
      | true =>
          have read := below.here.noExpr ran (by decide)
          exact ⟨fun _ => read.1, read.2⟩
      | false => exact ⟨(fun isFrontEnd => by cases isFrontEnd), below.here.noValue ran⟩

theorem expectOperand_sound (below : Below frontEnd fuel) {e : Expr}
    (ran : expectOperand frontEnd bb fuel tokens = .ok (e, rest)) :
    (frontEnd = true → bb = true) ∧
      ∃ s, Spells frontEnd bb (operandPlace frontEnd) tokens e rest s := by
  cases fuel with
  | zero => cases ran
  | succ fuel =>
      rw [expectOperand] at ran
      obtain ⟨⟨operand, rest₁⟩, accepted, ran⟩ := bind_eq_ok.mp ran
      obtain ⟨e', there, ran⟩ := bind_eq_ok.mp ran
      rw [of_expectNode there] at accepted
      cases ran
      exact acceptOperand_sound below.down accepted

theorem tupleElements_sound (below : Below frontEnd fuel) {es : List Expr}
    (ran : tupleElements frontEnd bb fuel tokens = .ok (es, rest)) :
    ∃ ops, SpellsAll frontEnd bb elementsText tokens es rest ops := by
  cases fuel with
  | zero => cases ran
  | succ fuel =>
      rw [tupleElements] at ran
      cases found : acceptToken .rparTok tokens with
      | mk ended rest₁ =>
          rw [found] at ran
          cases ended with
          | true =>
              cases ran
              exact ⟨[], .nil (of_acceptToken_true found)⟩
          | false =>
              obtain ⟨rest₂, apart, ran⟩ := bind_eq_ok.mp ran
              obtain ⟨⟨element, rest₃⟩, first, ran⟩ := bind_eq_ok.mp ran
              obtain ⟨⟨elements, rest₄⟩, others, ran⟩ := bind_eq_ok.mp ran
              cases ran
              obtain ⟨-, s, head⟩ := expectOperand_sound below.down first
              obtain ⟨ops, tail⟩ := below.here.elements others
              refine ⟨s :: ops, head.cons tail ?_⟩
              rw [← of_acceptToken_false found, of_expectToken apart, head.text, tail.text]
              simp [elementsText]

theorem operandsFrom_sound (below : Below frontEnd fuel) {expect : Bool} {es : List Expr}
    (ran : operandsFrom frontEnd bb expect fuel tokens = .ok (es, rest)) :
    (frontEnd = true → bb = true) ∧ ∃ ops, (expect = true → ops ≠ []) ∧
      SpellsAll frontEnd bb operandsText (.word .lparTok :: tokens) es rest ops := by
  cases fuel with
  | zero => cases ran
  | succ fuel =>
      rw [operandsFrom] at ran
      obtain ⟨⟨val, rest₁⟩, valued, ran⟩ := bind_eq_ok.mp ran
      cases val with
      | none =>
          have read := acceptOperand_none below.down valued
          cases expect with
          | true => cases ran
          | false =>
              cases found : acceptToken .rparTok rest₁ with
              | mk ended rest₂ =>
                  simp only [found, Bool.false_eq_true, if_false] at ran
                  cases ended with
                  | true =>
                      cases ran
                      refine ⟨read.1, [], (fun expected => by cases expected), .nil ?_⟩
                      rw [← read.2, of_acceptToken_true found]
                      rfl
                  | false => cases ran
      | some val =>
          obtain ⟨builds, s, head⟩ := acceptOperand_sound below.down valued
          refine ⟨builds, ?_⟩
          cases separated : acceptToken .commaTok rest₁ with
          | mk comma rest₂ =>
              simp only [separated] at ran
              cases comma with
              | true =>
                  obtain ⟨⟨vals, rest₃⟩, others, ran⟩ := bind_eq_ok.mp ran
                  cases ran
                  obtain ⟨-, ops, nonempty, tail⟩ := below.here.operandsFrom others
                  cases ops with
                  | nil => exact absurd rfl (nonempty rfl)
                  | cons next ops =>
                      refine ⟨s :: next :: ops, fun _ => List.cons_ne_nil _ _, head.cons tail ?_⟩
                      have further := List.tail_eq_of_cons_eq tail.text
                      rw [head.text, of_acceptToken_true separated, further]
                      simp [operandsText, elementsText]
              | false =>
                  rw [of_acceptToken_false separated] at ran
                  cases found : acceptToken .rparTok rest₁ with
                  | mk ended rest₃ =>
                      simp only [found] at ran
                      cases ended with
                      | true =>
                          cases ran
                          have noMore : SpellsAll frontEnd bb (fun _ => []) rest [] rest [] :=
                            .nil rfl
                          refine ⟨[s], fun _ => List.cons_ne_nil _ _,
                            head.cons noMore ?_⟩
                          rw [head.text, of_acceptToken_true found]
                          simp [operandsText, elementsText]
                      | false => cases ran

theorem expectOperands_sound (below : Below frontEnd fuel) {es : List Expr}
    (ran : expectOperands frontEnd bb fuel tokens = .ok (es, rest)) :
    (frontEnd = true → bb = true) ∧
      ∃ ops, SpellsAll frontEnd bb operandsText tokens es rest ops := by
  cases fuel with
  | zero => cases ran
  | succ fuel =>
      rw [expectOperands] at ran
      obtain ⟨rest₁, opened, ran⟩ := bind_eq_ok.mp ran
      obtain ⟨builds, ops, -, spells⟩ := below.here.operandsFrom ran
      rw [of_expectToken opened]
      exact ⟨builds, ops, spells⟩

/-! ## Values -/

theorem parenthesised_sound (below : Below frontEnd fuel) {result : Option Expr}
    (ran : parenthesised frontEnd bb fuel tokens = .ok (result, rest)) :
    ∃ e s, result = some e ∧ Spells frontEnd bb (-3) (.word .lparTok :: tokens) e rest s := by
  cases fuel with
  | zero => cases ran
  | succ fuel =>
      rw [parenthesised] at ran
      cases found : acceptToken .rparTok tokens with
      | mk ended rest₁ =>
          rw [found] at ran
          cases ended with
          | true =>
              cases ran
              refine ⟨_, .leaf .unit, rfl, .leaf, .value rfl, rfl, ?_⟩
              rw [of_acceptToken_true found]
              rfl
          | false =>
              obtain ⟨⟨atom, rest₂⟩, first, ran⟩ := bind_eq_ok.mp ran
              obtain ⟨builds, s, head⟩ := expectOperand_sound below.down first
              rw [of_acceptToken_false found] at head
              cases closed : acceptToken .rparTok rest₂ with
              | mk alone rest₃ =>
                  simp only [closed] at ran
                  cases alone with
                  | true =>
                      cases ran
                      refine ⟨_, .paren s, rfl, .paren builds head.fits head.formed, .value rfl,
                        head.tree, ?_⟩
                      rw [head.text, of_acceptToken_true closed]
                      simp [Syn.text]
                  | false =>
                      obtain ⟨rest₄, apart, ran⟩ := bind_eq_ok.mp ran
                      obtain ⟨⟨element, rest₅⟩, second, ran⟩ := bind_eq_ok.mp ran
                      obtain ⟨⟨elements, rest₆⟩, others, ran⟩ := bind_eq_ok.mp ran
                      cases ran
                      obtain ⟨-, s', next⟩ := expectOperand_sound below.down second
                      obtain ⟨ops, tail⟩ := tupleElements_sound below.down others
                      have further : rest₅ = elementsText ops ++ rest₆ := tail.text
                      refine ⟨_, .tuple s s' ops, rfl, .tuple builds ?_ ?_, .value rfl, ?_, ?_⟩
                      · exact List.forall_mem_cons.mpr
                          ⟨head.fits, List.forall_mem_cons.mpr ⟨next.fits, tail.fits⟩⟩
                      · exact List.forall_mem_cons.mpr
                          ⟨head.formed, List.forall_mem_cons.mpr ⟨next.formed, tail.formed⟩⟩
                      · rw [Syn.tree, head.tree, next.tree, tail.trees]
                      · rw [head.text, ← of_acceptToken_false closed, of_expectToken apart,
                          next.text, further]
                        simp [Syn.text]

/-- The names are those of the ops, and three others. -/
theorem headNamed_sound {id : String} {head : Head} (named : headNamed id = some head) :
    match head with
    | .primOp op => id = op.primopName
    | .extInstr => id = "ext_instr"
    | .alloca => id = "alloca"
    | .debugPrintf => id = "debug_printf" := by
  have names : ∀ named ∈ primopNames, named.2 = named.1.primopName := by decide +kernel
  rw [headNamed] at named
  cases found : primopNames.find? fun op => op.2 == id with
  | some op =>
      rw [found] at named
      cases named
      have same := List.find?_some found
      exact (eq_of_beq same).symm.trans (names op (List.mem_of_find?_eq_some found))
  | none =>
      rw [found] at named
      by_cases extInstr : id = "ext_instr"
      · rw [if_pos extInstr] at named
        cases named
        exact extInstr
      rw [if_neg extInstr] at named
      by_cases alloca : id = "alloca"
      · rw [if_pos alloca] at named
        cases named
        exact alloca
      rw [if_neg alloca] at named
      by_cases debugPrintf : id = "debug_printf"
      · rw [if_pos debugPrintf] at named
        cases named
        exact debugPrintf
      · rw [if_neg debugPrintf] at named
        cases named

theorem of_expectString {found : Option Expr} {set : Expr} (ran : expectString found = .ok set) :
    found = some set ∧ set.IsString := by
  rw [expectString.eq_def] at ran
  split at ran
  · cases ran
    exact ⟨rfl, trivial⟩
  · cases ran
  · cases ran

theorem of_expectUntypedNumber {found : Option Expr} {opcode : Expr}
    (ran : expectUntypedNumber found = .ok opcode) :
    found = some opcode ∧ opcode.IsUntypedNumber := by
  rw [expectUntypedNumber.eq_def] at ran
  split at ran
  · cases ran
    exact ⟨rfl, trivial⟩
  · cases ran
  · cases ran

theorem of_getStringLiteral {e : Expr} {done : PUnit} (ran : getStringLiteral e = .ok done) :
    ¬ e.IsComposite := by
  rw [getStringLiteral.eq_def] at ran
  split at ran
  · cases ran
  · cases ran
  · cases ran
  · next isUnit isTuple isComposite =>
      intro composite
      cases e with
      | leaf l =>
          cases l with
          | unit => exact isUnit rfl
          | _ => exact composite.elim
      | tuple first second rest => exact isTuple _ _ _ rfl
      | composite type contents => exact isComposite _ _ rfl
      | _ => exact composite.elim

theorem primOp_sound (below : Below frontEnd fuel) {op : PrimitiveOp} {result : Option Expr}
    (ran : headed frontEnd bb (.primOp op) fuel tokens = .ok (result, rest)) :
    ∃ e s, result = some e ∧
      Spells frontEnd bb (-3) (.identifier op.primopName :: tokens) e rest s := by
  cases fuel with
  | zero => cases ran
  | succ fuel =>
      rw [headed] at ran
      cases bb with
      | false => cases ran
      | true =>
          obtain ⟨⟨types, rest₁⟩, typed, ran⟩ := bind_eq_ok.mp ran
          obtain ⟨⟨operands, rest₂⟩, passed, ran⟩ := bind_eq_ok.mp ran
          cases ran
          obtain ⟨written, rfl, text, formed⟩ := acceptTypeArguments_sound below.down typed
          obtain ⟨-, ops, spells⟩ := expectOperands_sound below.down passed
          refine ⟨_, .primOp op written ops, rfl, .primOp formed spells.fits spells.formed,
            .value rfl, ?_, ?_⟩
          · rw [Syn.tree, spells.trees]
          · rw [text, spells.text]
            simp [Syn.text]

theorem extInstr_sound (below : Below frontEnd fuel) {result : Option Expr}
    (ran : headed frontEnd bb .extInstr fuel tokens = .ok (result, rest)) :
    ∃ e s, result = some e ∧ Spells frontEnd bb (-3) (.identifier "ext_instr" :: tokens) e rest s := by
  cases fuel with
  | zero => cases ran
  | succ fuel =>
      rw [headed] at ran
      obtain ⟨rest₁, opened, ran⟩ := bind_eq_ok.mp ran
      obtain ⟨⟨setNode, rest₂⟩, setRead, ran⟩ := bind_eq_ok.mp ran
      obtain ⟨set, isString, ran⟩ := bind_eq_ok.mp ran
      obtain ⟨rest₃, apart, ran⟩ := bind_eq_ok.mp ran
      obtain ⟨⟨opcodeNode, rest₄⟩, opcodeRead, ran⟩ := bind_eq_ok.mp ran
      obtain ⟨opcode, isNumber, ran⟩ := bind_eq_ok.mp ran
      obtain ⟨rest₅, apart', ran⟩ := bind_eq_ok.mp ran
      obtain ⟨⟨type, rest₆⟩, typed, ran⟩ := bind_eq_ok.mp ran
      obtain ⟨rest₇, closed, ran⟩ := bind_eq_ok.mp ran
      obtain ⟨⟨operands, rest₈⟩, passed, ran⟩ := bind_eq_ok.mp ran
      obtain ⟨done, builder, ran⟩ := bind_eq_ok.mp ran
      cases of_assertBuilder builder
      rw [(of_expectString isString).1] at setRead
      rw [(of_expectUntypedNumber isNumber).1] at opcodeRead
      cases ran
      obtain ⟨s, setSpells⟩ := below.here.value setRead
      obtain ⟨s', opcodeSpells⟩ := below.here.value opcodeRead
      have resultType := expectQualifiedType_sound below.down typed
      obtain ⟨-, ops, spells⟩ := expectOperands_sound below.down passed
      have setIsString := (of_expectString isString).2
      have opcodeIsNumber := (of_expectUntypedNumber isNumber).2
      rw [← setSpells.tree] at setIsString
      rw [← opcodeSpells.tree] at opcodeIsNumber
      refine ⟨_, .extInstr s s' type ops, rfl, .extInstr setSpells.fits setSpells.formed setIsString
        opcodeSpells.fits opcodeSpells.formed opcodeIsNumber resultType.2 spells.fits spells.formed,
        .value rfl, ?_, ?_⟩
      · rw [Syn.tree, setSpells.tree, opcodeSpells.tree, spells.trees]
      · rw [of_expectToken opened, setSpells.text, of_expectToken apart, opcodeSpells.text,
          of_expectToken apart', resultType.1, of_expectToken closed, spells.text]
        simp [Syn.text]

theorem alloca_sound (below : Below frontEnd fuel) {result : Option Expr}
    (ran : headed frontEnd bb .alloca fuel tokens = .ok (result, rest)) :
    ∃ e s, result = some e ∧ Spells frontEnd bb (-3) (.identifier "alloca" :: tokens) e rest s := by
  cases fuel with
  | zero => cases ran
  | succ fuel =>
      rw [headed] at ran
      obtain ⟨⟨types, rest₁⟩, typed, ran⟩ := bind_eq_ok.mp ran
      obtain ⟨⟨type, others⟩, headType, ran⟩ := bind_eq_ok.mp ran
      obtain ⟨⟨operands, rest₂⟩, passed, ran⟩ := bind_eq_ok.mp ran
      obtain ⟨-, ops, spells⟩ := expectOperands_sound below.down passed
      obtain ⟨written, names, text, formed⟩ := acceptTypeArguments_sound below.down typed
      cases ops with
      | cons op ops =>
          rw [← spells.trees] at ran
          cases ran
      | nil =>
          rw [← spells.trees] at ran
          obtain ⟨done, builder, ran⟩ := bind_eq_ok.mp ran
          cases of_assertBuilder builder
          cases ran
          cases written with
          | absent =>
              rw [names] at headType
              cases headType
          | brackets first more =>
              rw [names] at headType
              cases headType
              refine ⟨_, .stackAlloc type more, rfl, .stackAlloc (names ▸ formed), .value rfl, rfl, ?_⟩
              rw [text, spells.text]
              simp [Syn.text, operandsText]

theorem debugPrintf_sound (below : Below frontEnd fuel) {result : Option Expr}
    (ran : headed frontEnd bb .debugPrintf fuel tokens = .ok (result, rest)) :
    ∃ e s, result = some e ∧
      Spells frontEnd bb (-3) (.identifier "debug_printf" :: tokens) e rest s := by
  cases fuel with
  | zero => cases ran
  | succ fuel =>
      rw [headed] at ran
      obtain ⟨⟨operands, rest₁⟩, passed, ran⟩ := bind_eq_ok.mp ran
      obtain ⟨⟨format, args⟩, headOperand, ran⟩ := bind_eq_ok.mp ran
      obtain ⟨read, isString, ran⟩ := bind_eq_ok.mp ran
      obtain ⟨done, builder, ran⟩ := bind_eq_ok.mp ran
      cases of_assertBuilder builder
      cases ran
      obtain ⟨-, ops, spells⟩ := expectOperands_sound below.down passed
      cases ops with
      | nil =>
          rw [← spells.trees] at headOperand
          cases headOperand
      | cons s ops =>
          rw [← spells.trees] at headOperand
          cases headOperand
          refine ⟨_, .debugPrintf s ops, rfl,
            .debugPrintf (of_getStringLiteral isString) spells.fits spells.formed, .value rfl, rfl, ?_⟩
          rw [spells.text]
          simp [Syn.text, operandsText]

theorem headed_sound (below : Below frontEnd fuel) {id : String} {head : Head}
    (named : headNamed id = some head) {result : Option Expr}
    (ran : headed frontEnd bb head fuel tokens = .ok (result, rest)) :
    ∃ e s, result = some e ∧ Spells frontEnd bb (-3) (.identifier id :: tokens) e rest s := by
  have name := headNamed_sound named
  cases head with
  | primOp op =>
      rw [name]
      exact primOp_sound below ran
  | extInstr =>
      rw [name]
      exact extInstr_sound below ran
  | alloca =>
      rw [name]
      exact alloca_sound below ran
  | debugPrintf =>
      rw [name]
      exact debugPrintf_sound below ran

/-- A value, or nothing that was read. -/
theorem acceptValue_cases (below : Below frontEnd fuel) {result : Option Expr}
    (ran : acceptValue frontEnd bb fuel tokens = .ok (result, rest)) :
    (result = none ∧ rest = tokens) ∨
      ∃ e s, result = some e ∧ Spells frontEnd bb (-3) tokens e rest s := by
  cases fuel with
  | zero => cases ran
  | succ fuel =>
      rw [acceptValue] at ran
      obtain ⟨⟨number, rest₁⟩, numeric, ran⟩ := bind_eq_ok.mp ran
      cases number with
      | some number =>
          cases ran
          exact .inr ⟨_, .leaf (.number number), rfl, .leaf, .value rfl, rfl,
            of_acceptNumericalLiteral_some numeric⟩
      | none =>
          cases of_acceptNumericalLiteral_none numeric
          dsimp only at ran
          split at ran
          · refine .inr ?_
            split at ran
            · cases ran
              exact ⟨_, .leaf (.unbound ⟨_, _⟩), rfl, .leaf, .value rfl, rfl, rfl⟩
            · next head named => exact headed_sound below.down named ran
          · cases ran
            exact .inr ⟨_, .leaf (.string _), rfl, .leaf, .value rfl, rfl, rfl⟩
          · cases ran
            exact .inr ⟨_, .leaf .trueLit, rfl, .leaf, .value rfl, rfl, rfl⟩
          · cases ran
            exact .inr ⟨_, .leaf .falseLit, rfl, .leaf, .value rfl, rfl, rfl⟩
          · exact .inr (parenthesised_sound below.down ran)
          · obtain ⟨⟨elemType, rest₂⟩, typed, ran⟩ := bind_eq_ok.mp ran
            obtain ⟨type, there, ran⟩ := bind_eq_ok.mp ran
            obtain ⟨⟨elems, rest₃⟩, passed, ran⟩ := bind_eq_ok.mp ran
            rw [show elemType = some type from of_expectNode there] at typed
            cases ran
            have element := below.here.type typed
            obtain ⟨builds, ops, spells⟩ := expectOperands_sound below.down passed
            have contents : rest₂ = operandsText ops ++ rest₃ := spells.text
            refine .inr ⟨_, .composite type ops, rfl,
              .composite builds element.2 spells.fits spells.formed, .value rfl, ?_, ?_⟩
            · rw [Syn.tree, spells.trees]
            · rw [element.1, contents]
              simp [Syn.text]
          · cases ran
            exact .inl ⟨rfl, rfl⟩

/-! ## Operators -/

theorem Syn.text_of_signed {s : Syn} (signed : s.signed = true) :
    ∃ more, s.text = .word .minusTok :: more := by
  cases s with
  | leaf l =>
      cases l with
      | number n =>
          cases n with
          | mk type literal =>
              cases type with
              | some type => cases signed
              | none =>
                  cases literal with
                  | dec negative digits =>
                      cases (show negative = true from signed)
                      exact ⟨_, rfl⟩
                  | hex digits => cases signed
      | _ => cases signed
  | _ => cases signed

/-- A value that does not begin with a sign is a primary expression. -/
theorem Spells.primary {e : Expr} {s : Syn} (spells : Spells frontEnd true (-3) tokens e rest s)
    (unsigned : ∀ more, tokens ≠ .word .minusTok :: more) :
    Spells frontEnd true (-2) tokens e rest s where
  formed := spells.formed
  fits := by
    refine ⟨Int.le_trans spells.fits.level (by decide), fun _ => ?_⟩
    cases signed : s.signed with
    | false => rfl
    | true =>
        obtain ⟨more, begins⟩ := Syn.text_of_signed signed
        have text := spells.text
        rw [begins] at text
        exact absurd text (unsigned _)
  tree := spells.tree
  text := spells.text

/-- A primary expression, or nothing that was read. -/
theorem acceptPrimaryExpr_cases (below : Below frontEnd fuel) {result : Option Expr}
    (ran : acceptPrimaryExpr frontEnd bb fuel tokens = .ok (result, rest)) :
    bb = true ∧ ((result = none ∧ rest = tokens) ∨
      ∃ e s, result = some e ∧ Spells frontEnd true (-2) tokens e rest s) := by
  cases fuel with
  | zero => cases ran
  | succ fuel =>
      rw [acceptPrimaryExpr.eq_def] at ran
      obtain ⟨done, builder, ran⟩ := bind_eq_ok.mp ran
      cases of_assertBuilder builder
      refine ⟨rfl, ?_⟩
      -- a value that is read where no operator stands
      have value : (∀ more, tokens ≠ .word .minusTok :: more) →
          acceptValue frontEnd true fuel tokens = .ok (result, rest) →
          (result = none ∧ rest = tokens) ∨
            ∃ e s, result = some e ∧ Spells frontEnd true (-2) tokens e rest s := by
        intro unsigned read
        cases acceptValue_cases below.down read with
        | inl nothing => exact .inl nothing
        | inr found =>
            obtain ⟨e, s, there, spells⟩ := found
            exact .inr ⟨e, s, there, spells.primary unsigned⟩
      dsimp only at ran
      split at ran
      · next t rest₁ _ =>
        cases operator : isUnaryOperator t with
        | none =>
            rw [operator] at ran
            refine value (fun more same => ?_) ran
            cases same
            cases operator
        | some op =>
            rw [operator] at ran
            obtain ⟨⟨operand, rest₂⟩, read, ran⟩ := bind_eq_ok.mp ran
            obtain ⟨e, there, ran⟩ := bind_eq_ok.mp ran
            rw [show operand = some e from of_expectNode there] at read
            cases ran
            obtain ⟨-, s, spells⟩ := below.here.primary read
            have inner : rest₁ = s.text ++ rest₂ := spells.text
            refine .inr ⟨_, .unary op s, rfl, .unary spells.fits spells.formed,
              ⟨le_refl _, fun _ => rfl⟩, ?_, ?_⟩
            · rw [Syn.tree, spells.tree]
            · rw [inner, Syn.text, token_of_isUnaryOperator operator]
              rfl
      · next noWord => exact value (fun more same => noWord _ _ same) ran

/-- The loop takes what was read as a left operand or as a callee. -/
theorem exprLoop_sound (below : Below frontEnd fuel) {outer : Int} {e : Expr} {whole : List Lexeme}
    {result : Option Expr} {s : Syn}
    (ran : exprLoop frontEnd true fuel outer e tokens = .ok (result, rest)) (loose : -1 ≤ outer)
    (spells : Spells frontEnd true outer whole e tokens s)
    (tight : 0 ≤ s.level → ¬ Continues (s.level - 1) tokens) :
    ∃ e' s', result = some e' ∧ Spells frontEnd true outer whole e' rest s' ∧
      ¬ Continues outer rest := by
  have unsigned := spells.fits.unsigned (by omega)
  cases fuel with
  | zero => cases ran
  | succ fuel =>
      rw [exprLoop.eq_def] at ran
      dsimp only at ran
      split at ran
      · next t rest₁ =>
        cases operator : isInfixOperator t with
        | some op =>
            have token := token_of_isInfixOperator operator
            simp only [operator] at ran
            by_cases looser : op.precedence > outer
            · rw [if_pos looser] at ran
              cases ran
              refine ⟨e, s, rfl, spells, fun continues => ?_⟩
              obtain ⟨t', more, same, goesOn⟩ := continues
              cases same
              cases goesOn with
              | inl call => exact (token_ne_closing op).2.2 (token.trans call)
              | inr other =>
                  obtain ⟨other, token', tight'⟩ := other
                  rw [infixOperator_injective (token'.trans token.symm)] at tight'
                  omega
            · rw [if_neg looser] at ran
              obtain ⟨⟨operand, rest₂⟩, read, ran⟩ := bind_eq_ok.mp ran
              obtain ⟨rhs, there, ran⟩ := bind_eq_ok.mp ran
              rw [show operand = some rhs from of_expectNode there] at read
              have bounds := precedence_bounds op
              obtain ⟨-, right, stops⟩ := below.here.expr read (by omega)
              obtain ⟨s', right⟩ := right
              -- the left operand binds at least as tightly
              have level : s.level ≤ op.precedence := by
                by_contra looseLeft
                exact tight (by omega) ⟨t, rest₁, rfl, .inr ⟨op, token, by omega⟩⟩
              refine below.here.loop (s := .binary op s s') ran loose ?_ fun _ => stops
              refine ⟨.binary ⟨level, fun _ => unsigned⟩ spells.formed right.fits right.formed,
                ⟨not_lt.mp looser, fun _ => rfl⟩, ?_, ?_⟩
              · rw [Syn.tree, spells.tree, right.tree]
              · rw [spells.text, ← token, right.text]
                simp [Syn.text]
        | none =>
            simp only [operator] at ran
            by_cases call : t = .lparTok
            · rw [if_pos call] at ran
              obtain ⟨⟨args, rest₂⟩, passed, ran⟩ := bind_eq_ok.mp ran
              obtain ⟨-, ops, operands⟩ := expectOperands_sound below.down passed
              have level : s.level ≤ -1 := by
                by_contra looseCallee
                exact tight (by omega) ⟨t, rest₁, rfl, .inl call⟩
              refine below.here.loop (s := .call s ops) ran loose ?_
                fun isOperator => absurd (show (0 : Int) ≤ -1 from isOperator) (by decide)
              refine ⟨.call ⟨level, fun _ => unsigned⟩ spells.formed operands.fits operands.formed,
                ⟨loose, fun _ => rfl⟩, ?_, ?_⟩
              · rw [Syn.tree, spells.tree, operands.trees]
              · rw [spells.text, operands.text]
                simp [Syn.text]
            · rw [if_neg call] at ran
              cases ran
              refine ⟨e, s, rfl, spells, fun continues => ?_⟩
              obtain ⟨t', more, same, goesOn⟩ := continues
              cases same
              cases goesOn with
              | inl isCall => exact call isCall
              | inr other =>
                  obtain ⟨other, token, -⟩ := other
                  rw [← token, isInfixOperator_token] at operator
                  cases operator
      · next noWord =>
        cases ran
        refine ⟨e, s, rfl, spells, fun continues => ?_⟩
        obtain ⟨t', more, same, -⟩ := continues
        exact noWord _ _ same

/-- An expression up to where nothing goes on, or nothing that was read. -/
theorem acceptExpr_cases (below : Below frontEnd fuel) {outer : Int} {result : Option Expr}
    (ran : acceptExpr frontEnd bb fuel outer tokens = .ok (result, rest)) (loose : -1 ≤ outer) :
    bb = true ∧ ((result = none ∧ rest = tokens) ∨
      ∃ e s, result = some e ∧ Spells frontEnd true outer tokens e rest s ∧
        ¬ Continues outer rest) := by
  cases fuel with
  | zero => cases ran
  | succ fuel =>
      rw [acceptExpr] at ran
      obtain ⟨done, builder, ran⟩ := bind_eq_ok.mp ran
      cases of_assertBuilder builder
      refine ⟨rfl, ?_⟩
      obtain ⟨⟨expr, rest₁⟩, first, ran⟩ := bind_eq_ok.mp ran
      cases expr with
      | none =>
          cases ran
          exact .inl ⟨rfl, (below.here.noPrimary first).2⟩
      | some expr =>
          obtain ⟨-, s, spells⟩ := below.here.primary first
          have level := spells.fits.level
          refine .inr (exprLoop_sound (s := s) below.down ran loose ?_ fun isOperator => by omega)
          exact ⟨spells.formed, ⟨by omega, fun _ => spells.fits.unsigned (by decide)⟩, spells.tree,
            spells.text⟩

/-- Every function that recurs is sound, with any fuel. -/
theorem sound (frontEnd : Bool) (fuel : Nat) : Sound frontEnd fuel := by
  induction fuel using Nat.strong_induction_on with
  | _ fuel below =>
      have below : Below frontEnd fuel := below
      exact {
        type := acceptUnqualifiedType_sound below
        members := structMembers_sound below
        typeArguments := typeArguments_sound below
        value := fun ran => by
          cases acceptValue_cases below ran with
          | inl nothing => cases nothing.1
          | inr found =>
              obtain ⟨e, s, there, spells⟩ := found
              cases there
              exact ⟨s, spells⟩
        noValue := fun ran => by
          cases acceptValue_cases below ran with
          | inl nothing => exact nothing.2
          | inr found =>
              obtain ⟨e, s, there, -⟩ := found
              cases there
        elements := tupleElements_sound below
        operandsFrom := operandsFrom_sound below
        primary := fun ran => by
          obtain ⟨builds, found⟩ := acceptPrimaryExpr_cases below ran
          refine ⟨builds, ?_⟩
          cases found with
          | inl nothing => cases nothing.1
          | inr found =>
              obtain ⟨e, s, there, spells⟩ := found
              cases there
              exact ⟨s, spells⟩
        noPrimary := fun ran => by
          obtain ⟨builds, found⟩ := acceptPrimaryExpr_cases below ran
          refine ⟨builds, ?_⟩
          cases found with
          | inl nothing => exact nothing.2
          | inr found =>
              obtain ⟨e, s, there, -⟩ := found
              cases there
        expr := fun ran loose => by
          obtain ⟨builds, found⟩ := acceptExpr_cases below ran loose
          refine ⟨builds, ?_⟩
          cases found with
          | inl nothing => cases nothing.1
          | inr found =>
              obtain ⟨e, s, there, spells, stops⟩ := found
              cases there
              exact ⟨⟨s, spells⟩, stops⟩
        noExpr := fun ran loose => by
          obtain ⟨builds, found⟩ := acceptExpr_cases below ran loose
          refine ⟨builds, ?_⟩
          cases found with
          | inl nothing => exact nothing.2
          | inr found =>
              obtain ⟨e, s, there, -⟩ := found
              cases there
        loop := exprLoop_sound below }

end Shady.Slim.Parser
