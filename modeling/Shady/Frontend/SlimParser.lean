import Shady.Frontend.SlimGrammar
import Shady.Library.Fallible

/-!
# The parser of expressions

Model of `accept_expr` of `src/frontend/slim/parser.c` and of what it calls. The tokens that are
left stand for the tokenizer; a function that returns no node leaves them as they are. Instructions
are added to the body builder in the order in which their trees are built, which is not recorded.
-/

set_option autoImplicit false

namespace Shady.Slim.Parser

/-- Why the parser gives up. -/
inductive Failure
  | expected (what : String)
  | syntaxError (message : String)
  | assertion (condition : String)
  | outOfFuel
  deriving DecidableEq

/-- A result, with the tokens that are left. -/
abbrev Parsed (α : Type) := α × List Lexeme

/-- `accept_token` -/
def acceptToken (tag : TokenTag) : List Lexeme → Bool × List Lexeme
  | .word t :: rest => if t = tag then (true, rest) else (false, .word t :: rest)
  | tokens => (false, tokens)

/-- `expect(accept_token(ctx, tag), what)` -/
def expectToken (tag : TokenTag) (what : String) (tokens : List Lexeme) :
    Except Failure (List Lexeme) :=
  match acceptToken tag tokens with
  | (true, rest) => .ok rest
  | (false, _) => .error (.expected what)

/-- `expect(node, what)` -/
def expectNode {α : Type} (what : String) : Option α → Except Failure α
  | none => .error (.expected what)
  | some node => .ok node

/-- `assert(bb)`, and the reads of the builder that come without it -/
def assertBuilder (bb : Bool) : Except Failure PUnit :=
  if bb then .ok () else .error (.assertion "bb")

def numericTypeOf : TokenTag → Option NumericType
  | .i8Tok => some .i8
  | .i16Tok => some .i16
  | .i32Tok => some .i32
  | .i64Tok => some .i64
  | .u8Tok => some .u8
  | .u16Tok => some .u16
  | .u32Tok => some .u32
  | .u64Tok => some .u64
  | .f16Tok => some .f16
  | .f32Tok => some .f32
  | .f64Tok => some .f64
  | _ => none

/-- `accept_numerical_type` -/
def acceptNumericalType : List Lexeme → Option NumericType × List Lexeme
  | .word t :: rest =>
      match numericTypeOf t with
      | some type => (some type, rest)
      | none => (none, .word t :: rest)
  | tokens => (none, tokens)

/-- The literal behind the type and the sign. -/
def numericalLiteral (type : Option NumericType) (negate : Bool) :
    List Lexeme → Except Failure (Parsed (Option Number))
  | .hexLit text :: rest =>
      if negate then .error (.syntaxError "hexadecimal literals can't start with '-'")
      else .ok (some ⟨type, .hex text⟩, rest)
  | .decLit text :: rest => .ok (some ⟨type, .dec negate text⟩, rest)
  | tokens =>
      if negate || type.isSome then .error (.syntaxError "expected numerical literal")
      else .ok (none, tokens)

/-- `accept_numerical_literal` -/
def acceptNumericalLiteral (tokens : List Lexeme) : Except Failure (Parsed (Option Number)) :=
  let (type, tokens) := acceptNumericalType tokens
  let (negate, tokens) := acceptToken .minusTok tokens
  numericalLiteral type negate tokens

def addressSpaceOf : TokenTag → Option SlimAddressSpace
  | .globalTok => some .global
  | .privateTok => some .priv
  | .sharedTok => some .shared
  | .subgroupTok => some .subgroup
  | .genericTok => some .generic
  | .inputTok => some .input
  | .outputTok => some .output
  | .externTok => some .external
  | _ => none

/-- `accept_address_space`, and the check of what it returns -/
def expectAddressSpace : List Lexeme → Except Failure (Parsed SlimAddressSpace)
  | .word t :: rest =>
      match addressSpaceOf t with
      | some addressSpace => .ok (addressSpace, rest)
      | none => .error (.expected "address space")
  | _ => .error (.expected "address space")

/-- `accept_uniformity_qualifier` -/
def acceptUniformityQualifier : List Lexeme → Option Bool × List Lexeme
  | .word .uniformTok :: rest => (some true, rest)
  | .word .varyingTok :: rest => (some false, rest)
  | tokens => (none, tokens)

/-- `accept_identifier`, where one has to come -/
def expectIdentifier (what : String) : List Lexeme → Except Failure (Parsed String)
  | .identifier name :: rest => .ok (name, rest)
  | _ => .error (.expected what)

/-- `is_infix_operator` -/
def isInfixOperator : TokenTag → Option InfixOperator
  | .starTok => some .mul
  | .minusTok => some .sub
  | .plusTok => some .add
  | .fslashTok => some .div
  | .percentTok => some .mod
  | .infixRshiftLogicalTok => some .rsl
  | .infixRshiftArithmTok => some .rsa
  | .infixLshiftTok => some .ls
  | .infixAndTok => some .and
  | .infixXorTok => some .xor
  | .infixOrTok => some .or
  | .infixEqTok => some .eq
  | .infixNeqTok => some .neq
  | .infixGtTok => some .gt
  | .infixGeqTok => some .ge
  | .infixLsTok => some .lt
  | .infixLeqTok => some .le
  | .poundTok => some .sbs
  | .equalTok => some .ass
  | _ => none

/-- The tokens that `accept_primary_expr` looks for. -/
def isUnaryOperator : TokenTag → Option UnaryOperator
  | .minusTok => some .neg
  | .unaryExclTok => some .not
  | .starTok => some .dereference
  | .infixAndTok => some .addrOf
  | _ => none

/-- `max_precedence` -/
def maxPrecedence : Int := 10

/-- `expect(set->tag == StringLiteral_TAG)`; the node may be missing. -/
def expectString : Option Expr → Except Failure Expr
  | some (.leaf (.string text)) => .ok (.leaf (.string text))
  | some _ => .error (.expected "string literal")
  | none => .error (.assertion "set")

/-- `expect(opcode->tag == UntypedNumber_TAG)`; the node may be missing. -/
def expectUntypedNumber : Option Expr → Except Failure Expr
  | some (.leaf (.number ⟨none, literal⟩)) => .ok (.leaf (.number ⟨none, literal⟩))
  | some _ => .error (.expected "number")
  | none => .error (.assertion "opcode")

/-- The size of an array is read without a body builder, so that it has no operands. -/
def arraySize : Expr → Except Failure Leaf
  | .leaf leaf => .ok leaf
  | _ => .error (.assertion "bb")

/-- The width of a pack is an untyped number. -/
def packWidth : Option Number → Except Failure Literal
  | some ⟨none, literal⟩ => .ok literal
  | _ => .error (.expected "number")

/-- `shd_first` -/
def first {α : Type} : List α → Except Failure (α × List α)
  | [] => .error (.assertion "nodes.count > 0")
  | head :: rest => .ok (head, rest)

/-- `shd_get_string_literal` reads integers from a composite, and there are none. -/
def getStringLiteral : Expr → Except Failure PUnit
  | .leaf .unit | .tuple _ _ _ | .composite _ _ =>
      .error (.assertion "value->tag == IntLiteral_TAG")
  | _ => .ok ()

section Parser

-- `config->front_end`
variable (frontEnd : Bool)

mutual
/-- `accept_unqualified_type` -/
def acceptUnqualifiedType : Nat → List Lexeme → Except Failure (Parsed (Option SlimType))
  | 0, _ => .error .outOfFuel
  | fuel + 1, tokens =>
      match acceptNumericalType tokens with
      | (some type, rest) => .ok (some (.numeric type), rest)
      | (none, _) =>
          match tokens with
          | .word .boolTok :: rest => .ok (some .bool, rest)
          | .word .maskTTok :: rest => .ok (some .mask, rest)
          | .word .ptrTok :: rest => pointerType false fuel rest
          | .word .refTok :: rest => pointerType true fuel rest
          | .word .lsbracketTok :: rest =>
              if frontEnd then arrayType fuel rest else .ok (none, .word .lsbracketTok :: rest)
          | .word .packTok :: rest => packType fuel rest
          | .word .structTok :: rest => do
              let rest ← expectToken .lbracketTok "'\x7b'" rest
              let (members, rest) ← structMembers fuel rest
              .ok (some (.record members), rest)
          | .identifier id :: rest => .ok (some (.unbound id), rest)
          | rest => .ok (none, rest)

/-- A pointer or a reference, behind its token. -/
def pointerType (isReference : Bool) : Nat → List Lexeme → Except Failure (Parsed (Option SlimType))
  | 0, _ => .error .outOfFuel
  | fuel + 1, tokens => do
      let (addressSpace, rest) ← expectAddressSpace tokens
      let (elemType, rest) ← acceptUnqualifiedType fuel rest
      let elemType ← expectNode "data type" elemType
      .ok (some (.ptr isReference addressSpace elemType), rest)

/-- An array, behind its bracket. -/
def arrayType : Nat → List Lexeme → Except Failure (Parsed (Option SlimType))
  | 0, _ => .error .outOfFuel
  | fuel + 1, tokens => do
      let (elemType, rest) ← acceptUnqualifiedType fuel tokens
      let elemType ← expectNode "type" elemType
      let (size, rest) ← arraySizeOf fuel rest
      let rest ← expectToken .rsbracketTok "']'" rest
      .ok (some (.arr elemType size), rest)

/-- The size of an array, behind a semicolon. -/
def arraySizeOf : Nat → List Lexeme → Except Failure (Parsed (Option Leaf))
  | 0, _ => .error .outOfFuel
  | fuel + 1, tokens =>
      match acceptToken .semiTok tokens with
      | (false, rest) => .ok (none, rest)
      | (true, rest) => do
          let (size, rest) ← acceptValue false fuel rest
          let size ← expectNode "value" size
          let size ← arraySize size
          .ok (some size, rest)

/-- A pack, behind its token. -/
def packType : Nat → List Lexeme → Except Failure (Parsed (Option SlimType))
  | 0, _ => .error .outOfFuel
  | fuel + 1, tokens => do
      let rest ← expectToken .lsbracketTok "'['" tokens
      let (elemType, rest) ← acceptUnqualifiedType fuel rest
      let elemType ← expectNode "packed element type" elemType
      let rest ← expectToken .semiTok "';'" rest
      let (size, rest) ← acceptNumericalLiteral rest
      let width ← packWidth size
      let rest ← expectToken .rsbracketTok "']'" rest
      .ok (some (.pack elemType width), rest)

/-- The loop over the members of a record. -/
def structMembers : Nat → List Lexeme → Except Failure (Parsed SlimMembers)
  | 0, _ => .error .outOfFuel
  | fuel + 1, tokens =>
      match acceptToken .rbracketTok tokens with
      | (true, rest) => .ok (.nil, rest)
      | (false, rest) => do
          let (elem, rest) ← acceptUnqualifiedType fuel rest
          let elem ← expectNode "struct member type" elem
          let (id, rest) ← expectIdentifier "struct member name" rest
          let rest ← expectToken .semiTok "';'" rest
          let (members, rest) ← structMembers fuel rest
          .ok (.cons elem id members, rest)

/-- `accept_type_arguments` -/
def acceptTypeArguments : Nat → List Lexeme → Except Failure (Parsed (List SlimType))
  | 0, _ => .error .outOfFuel
  | fuel + 1, tokens =>
      match acceptToken .lsbracketTok tokens with
      | (true, rest) => typeArguments fuel rest
      | (false, rest) => .ok ([], rest)

/-- The loop of `accept_type_arguments`. -/
def typeArguments : Nat → List Lexeme → Except Failure (Parsed (List SlimType))
  | 0, _ => .error .outOfFuel
  | fuel + 1, tokens => do
      let (type, rest) ← acceptUnqualifiedType fuel tokens
      let type ← expectNode "unqualified type" type
      match acceptToken .commaTok rest with
      | (true, rest) => do
          let (types, rest) ← typeArguments fuel rest
          .ok (type :: types, rest)
      | (false, rest) =>
          match acceptToken .rsbracketTok rest with
          | (true, rest) => .ok ([type], rest)
          | (false, rest) => do
              let (types, rest) ← typeArguments fuel rest
              .ok (type :: types, rest)

/-- `accept_qualified_type`, where one has to come -/
def expectQualifiedType : Nat → List Lexeme → Except Failure (Parsed QualifiedType)
  | 0, _ => .error .outOfFuel
  | fuel + 1, tokens =>
      match acceptUniformityQualifier tokens with
      | (none, _) => .error (.expected "type")
      | (some isUniform, rest) => do
          let (unqualified, rest) ← acceptUnqualifiedType fuel rest
          let unqualified ← expectNode "unqualified type" unqualified
          .ok (⟨isUniform, unqualified⟩, rest)

/-- `accept_value`; numbers were read before its `switch`. -/
def acceptValue (bb : Bool) : Nat → List Lexeme → Except Failure (Parsed (Option Expr))
  | 0, _ => .error .outOfFuel
  | fuel + 1, tokens => do
      let (number, rest) ← acceptNumericalLiteral tokens
      match number with
      | some number => .ok (some (.leaf (.number number)), rest)
      | none =>
          match rest with
          | .identifier id :: rest =>
              match h : headNamed id with
              | none => .ok (some (.leaf (.unbound ⟨id, h⟩)), rest)
              | some head => headed bb head fuel rest
          | .stringLit text :: rest => .ok (some (.leaf (.string text)), rest)
          | .word .trueTok :: rest => .ok (some (.leaf .trueLit), rest)
          | .word .falseTok :: rest => .ok (some (.leaf .falseLit), rest)
          | .word .lparTok :: rest => parenthesised bb fuel rest
          | .word .compositeTok :: rest => do
              let (elemType, rest) ← acceptUnqualifiedType fuel rest
              let elemType ← expectNode "composite data type" elemType
              let (elems, rest) ← expectOperands bb fuel rest
              .ok (some (.composite elemType elems), rest)
          | rest => .ok (none, rest)

/-- The cases of an identifier that is no free name, behind it. -/
def headed (bb : Bool) : Head → Nat → List Lexeme → Except Failure (Parsed (Option Expr))
  | _, 0, _ => .error .outOfFuel
  | .primOp op, fuel + 1, tokens =>
      if !bb then .error (.syntaxError "primops cannot be used outside of a function")
      else do
        let (types, rest) ← acceptTypeArguments fuel tokens
        let (operands, rest) ← expectOperands bb fuel rest
        .ok (some (.primOp op types operands), rest)
  | .extInstr, fuel + 1, tokens => do
      let rest ← expectToken .lsbracketTok "'['" tokens
      let (set, rest) ← acceptValue false fuel rest
      let set ← expectString set
      let rest ← expectToken .commaTok "','" rest
      let (opcode, rest) ← acceptValue false fuel rest
      let opcode ← expectUntypedNumber opcode
      let rest ← expectToken .commaTok "','" rest
      let (type, rest) ← expectQualifiedType fuel rest
      let rest ← expectToken .rsbracketTok "]" rest
      let (operands, rest) ← expectOperands bb fuel rest
      assertBuilder bb
      .ok (some (.extInstr set opcode type operands), rest)
  | .alloca, fuel + 1, tokens => do
      let (types, rest) ← acceptTypeArguments fuel tokens
      let (type, _) ← first types
      let (operands, rest) ← expectOperands bb fuel rest
      if !operands.isEmpty then .error (.expected "no operands")
      else do
        assertBuilder bb
        .ok (some (.stackAlloc type), rest)
  | .debugPrintf, fuel + 1, tokens => do
      let (operands, rest) ← expectOperands bb fuel tokens
      let (format, args) ← first operands
      getStringLiteral format
      assertBuilder bb
      .ok (some (.debugPrintf format args), rest)

/-- A parenthesis, behind its token: nothing, one operand or a tuple. -/
def parenthesised (bb : Bool) : Nat → List Lexeme → Except Failure (Parsed (Option Expr))
  | 0, _ => .error .outOfFuel
  | fuel + 1, tokens =>
      match acceptToken .rparTok tokens with
      | (true, rest) => .ok (some (.leaf .unit), rest)
      | (false, rest) => do
          let (atom, rest) ← expectOperand bb fuel rest
          match acceptToken .rparTok rest with
          | (true, rest) => .ok (some atom, rest)
          | (false, rest) => do
              -- the first turn of the loop
              let rest ← expectToken .commaTok "','" rest
              let (element, rest) ← expectOperand bb fuel rest
              let (elements, rest) ← tupleElements bb fuel rest
              .ok (some (.tuple atom element elements), rest)

/-- The loop over the further elements of a tuple. -/
def tupleElements (bb : Bool) : Nat → List Lexeme → Except Failure (Parsed (List Expr))
  | 0, _ => .error .outOfFuel
  | fuel + 1, tokens =>
      match acceptToken .rparTok tokens with
      | (true, rest) => .ok ([], rest)
      | (false, rest) => do
          let rest ← expectToken .commaTok "','" rest
          let (element, rest) ← expectOperand bb fuel rest
          let (elements, rest) ← tupleElements bb fuel rest
          .ok (element :: elements, rest)

/-- `accept_operand` -/
def acceptOperand (bb : Bool) : Nat → List Lexeme → Except Failure (Parsed (Option Expr))
  | 0, _ => .error .outOfFuel
  | fuel + 1, tokens =>
      if frontEnd then acceptExpr bb fuel maxPrecedence tokens else acceptValue bb fuel tokens

/-- `expect_operand` -/
def expectOperand (bb : Bool) : Nat → List Lexeme → Except Failure (Parsed Expr)
  | 0, _ => .error .outOfFuel
  | fuel + 1, tokens => do
      let (operand, rest) ← acceptOperand bb fuel tokens
      let operand ← expectNode "value operand" operand
      .ok (operand, rest)

/-- `expect_operands` -/
def expectOperands (bb : Bool) : Nat → List Lexeme → Except Failure (Parsed (List Expr))
  | 0, _ => .error .outOfFuel
  | fuel + 1, tokens => do
      let rest ← expectToken .lparTok "'('" tokens
      operandsFrom bb false fuel rest

/-- The loop of `expect_operands`; behind a comma a value is expected. -/
def operandsFrom (bb expect : Bool) : Nat → List Lexeme → Except Failure (Parsed (List Expr))
  | 0, _ => .error .outOfFuel
  | fuel + 1, tokens => do
      let (val, rest) ← acceptOperand bb fuel tokens
      match val with
      | none =>
          if expect then .error (.syntaxError "expected value but got none")
          else
            match acceptToken .rparTok rest with
            | (true, rest) => .ok ([], rest)
            | (false, _) => .error (.syntaxError "Expected value or ')'")
      | some val =>
          match acceptToken .commaTok rest with
          | (true, rest) => do
              let (vals, rest) ← operandsFrom bb true fuel rest
              .ok (val :: vals, rest)
          | (false, rest) =>
              match acceptToken .rparTok rest with
              | (true, rest) => .ok ([val], rest)
              | (false, _) => .error (.syntaxError "Expected ',' or ')'")

/-- `accept_primary_expr`; no value is an `IntLiteral`, so that a negation is an instruction. -/
def acceptPrimaryExpr (bb : Bool) : Nat → List Lexeme → Except Failure (Parsed (Option Expr))
  | 0, _ => .error .outOfFuel
  | fuel + 1, tokens => do
      assertBuilder bb
      match tokens with
      | .word t :: rest =>
          match isUnaryOperator t with
          | some op => do
              let (expr, rest) ← acceptPrimaryExpr bb fuel rest
              let expr ← expectNode "expression" expr
              .ok (some (.unary op expr), rest)
          | none => acceptValue bb fuel (.word t :: rest)
      | tokens => acceptValue bb fuel tokens

/-- `accept_expr` -/
def acceptExpr (bb : Bool) : Nat → Int → List Lexeme → Except Failure (Parsed (Option Expr))
  | 0, _, _ => .error .outOfFuel
  | fuel + 1, outerPrecedence, tokens => do
      assertBuilder bb
      let (expr, rest) ← acceptPrimaryExpr bb fuel tokens
      match expr with
      | none => .ok (none, rest)
      | some expr => exprLoop bb fuel outerPrecedence expr rest

/-- The loop of `accept_expr`. -/
def exprLoop (bb : Bool) : Nat → Int → Expr → List Lexeme → Except Failure (Parsed (Option Expr))
  | 0, _, _, _ => .error .outOfFuel
  | fuel + 1, outerPrecedence, expr, tokens =>
      match tokens with
      | .word t :: rest =>
          match isInfixOperator t with
          | some op =>
              if op.precedence > outerPrecedence then .ok (some expr, .word t :: rest)
              else do
                let (rhs, rest) ← acceptExpr bb fuel (op.precedence - 1) rest
                let rhs ← expectNode "expression" rhs
                exprLoop bb fuel outerPrecedence (.binary op expr rhs) rest
          | none =>
              if t = .lparTok then do
                let (args, rest) ← expectOperands bb fuel (.word t :: rest)
                exprLoop bb fuel outerPrecedence (.call expr args) rest
              else .ok (some expr, .word t :: rest)
      | tokens => .ok (some expr, tokens)
end

attribute [simp] acceptUnqualifiedType pointerType arrayType arraySizeOf packType structMembers
  acceptTypeArguments typeArguments expectQualifiedType acceptValue headed parenthesised
  tupleElements acceptOperand expectOperand expectOperands operandsFrom acceptPrimaryExpr acceptExpr
  exprLoop

end Parser

end Shady.Slim.Parser
