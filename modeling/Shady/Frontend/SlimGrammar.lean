import Shady.Frontend.Token
import Shady.Ir.DataType

/-!
# The grammar of expressions

What `src/frontend/slim/parser.c` reads as an expression: the tree it builds, and the texts that
stand for a tree. A text may have more parentheses than its tree needs.
-/

set_option autoImplicit false

namespace Shady.Slim.Parser

/-- A token with what the parser reads of its text. Other tokens than these four kinds are known by
their tag. -/
inductive Lexeme
  | word (tag : TokenTag)
  | identifier (name : String)
  | decLit (text : String)
  | hexLit (text : String)
  | stringLit (text : String)
  deriving DecidableEq

/-! ## Operators -/

/-- `Op` -/
inductive PrimitiveOp
  | add | addCarry | sub | subBorrow | mul | mulExtended | div | fma | mod | neg | not | and | or
  | xor | gt | gte | lt | lte | eq | neq | rshiftLogical | rshiftArithm | lshift | sqrt | invSqrt
  | pow | exp | floor | ceil | round | fract | min | max | abs | sign | sin | cos | sizeOf | alignOf
  | offsetOf | subgroupAssumeUniform | select | convert | reinterpret | extract | extractDynamic
  | insert | shuffle | sampleTexture | emptyMask | maskIsThreadActive
  deriving DecidableEq

/-- `shd_get_primop_name`, in the order of the ops. -/
def primopNames : List (PrimitiveOp × String) :=
  [(.add, "add"), (.addCarry, "add_carry"), (.sub, "sub"), (.subBorrow, "sub_borrow"),
    (.mul, "mul"), (.mulExtended, "mul_extended"), (.div, "div"), (.fma, "fma"), (.mod, "mod"),
    (.neg, "neg"), (.not, "not"), (.and, "and"), (.or, "or"), (.xor, "xor"), (.gt, "gt"),
    (.gte, "gte"), (.lt, "lt"), (.lte, "lte"), (.eq, "eq"), (.neq, "neq"),
    (.rshiftLogical, "rshift_logical"), (.rshiftArithm, "rshift_arithm"), (.lshift, "lshift"),
    (.sqrt, "sqrt"), (.invSqrt, "inv_sqrt"), (.pow, "pow"), (.exp, "exp"), (.floor, "floor"),
    (.ceil, "ceil"), (.round, "round"), (.fract, "fract"), (.min, "min"), (.max, "max"),
    (.abs, "abs"), (.sign, "sign"), (.sin, "sin"), (.cos, "cos"), (.sizeOf, "size_of"),
    (.alignOf, "align_of"), (.offsetOf, "offset_of"),
    (.subgroupAssumeUniform, "subgroup_assume_uniform"), (.select, "select"),
    (.convert, "convert"), (.reinterpret, "reinterpret"), (.extract, "extract"),
    (.extractDynamic, "extract_dynamic"), (.insert, "insert"), (.shuffle, "shuffle"),
    (.sampleTexture, "sample_texture"), (.emptyMask, "empty_mask"),
    (.maskIsThreadActive, "mask_is_thread_active")]

/-- `INFIX_OPERATORS` -/
inductive InfixOperator
  | mul | sub | add | div | mod | rsl | rsa | ls | and | xor | or | eq | neq | gt | ge | lt | le
  | sbs | ass
  deriving DecidableEq

/-- A row of the table: the token, the op and the precedence. What has no op is an instruction of
the front end. -/
def InfixOperator.row : InfixOperator → TokenTag × Option PrimitiveOp × Int
  | .mul => (.starTok, some .mul, 1)
  | .sub => (.minusTok, some .sub, 2)
  | .add => (.plusTok, some .add, 2)
  | .div => (.fslashTok, some .div, 1)
  | .mod => (.percentTok, some .mod, 1)
  | .rsl => (.infixRshiftLogicalTok, some .rshiftLogical, 3)
  | .rsa => (.infixRshiftArithmTok, some .rshiftArithm, 3)
  | .ls => (.infixLshiftTok, some .lshift, 3)
  | .and => (.infixAndTok, some .and, 4)
  | .xor => (.infixXorTok, some .xor, 5)
  | .or => (.infixOrTok, some .or, 6)
  | .eq => (.infixEqTok, some .eq, 7)
  | .neq => (.infixNeqTok, some .neq, 7)
  | .gt => (.infixGtTok, some .gt, 7)
  | .ge => (.infixGeqTok, some .gte, 7)
  | .lt => (.infixLsTok, some .lt, 7)
  | .le => (.infixLeqTok, some .lte, 7)
  | .sbs => (.poundTok, none, 0)
  | .ass => (.equalTok, none, 10)

def InfixOperator.token (op : InfixOperator) : TokenTag := op.row.1

/-- `is_primop_op` -/
def InfixOperator.primop (op : InfixOperator) : Option PrimitiveOp := op.row.2.1

/-- `get_precedence` -/
def InfixOperator.precedence (op : InfixOperator) : Int := op.row.2.2

/-- The operators in front of a primary expression. -/
inductive UnaryOperator
  | neg | not | dereference | addrOf
  deriving DecidableEq

def UnaryOperator.token : UnaryOperator → TokenTag
  | .neg => .minusTok
  | .not => .unaryExclTok
  | .dereference => .starTok
  | .addrOf => .infixAndTok

/-! ## Values and types without parentheses -/

inductive NumericType
  | i8 | i16 | i32 | i64 | u8 | u16 | u32 | u64 | f16 | f32 | f64
  deriving DecidableEq

def NumericType.token : NumericType → TokenTag
  | .i8 => .i8Tok
  | .i16 => .i16Tok
  | .i32 => .i32Tok
  | .i64 => .i64Tok
  | .u8 => .u8Tok
  | .u16 => .u16Tok
  | .u32 => .u32Tok
  | .u64 => .u64Tok
  | .f16 => .f16Tok
  | .f32 => .f32Tok
  | .f64 => .f64Tok

inductive Literal
  | dec (negative : Bool) (digits : String)
  | hex (digits : String)
  deriving DecidableEq

/-- The plain text of an `UntypedNumber`. -/
def Literal.plaintext : Literal → String
  | .dec negative digits => if negative then "-" ++ digits else digits
  | .hex digits => digits

/-- An `UntypedNumber`, in a `ConstrainedValue` where it has a type. -/
structure Number where
  type : Option NumericType
  literal : Literal
  deriving DecidableEq

/-- What an identifier stands for at the beginning of a value. -/
inductive Head
  | primOp (op : PrimitiveOp)
  | extInstr
  | alloca
  | debugPrintf
  deriving DecidableEq

/-- The comparisons of an identifier with the names of the ops, and with three others. -/
def headNamed (id : String) : Option Head :=
  match primopNames.find? fun op => op.2 == id with
  | some op => some (.primOp op.1)
  | none =>
      if id = "ext_instr" then some .extInstr
      else if id = "alloca" then some .alloca
      else if id = "debug_printf" then some .debugPrintf
      else none

/-- A name that is not taken. -/
structure UnboundName where
  name : String
  free : headNamed name = none

/-- A value without operands; a string is kept as it is spelled. -/
inductive Leaf
  | number (number : Number)
  | unbound (id : UnboundName)
  | string (text : String)
  | trueLit
  | falseLit
  | unit

/-- The address spaces that have a token. -/
inductive SlimAddressSpace
  | global | priv | shared | subgroup | generic | input | output | external
  deriving DecidableEq

def SlimAddressSpace.token : SlimAddressSpace → TokenTag
  | .global => .globalTok
  | .priv => .privateTok
  | .shared => .sharedTok
  | .subgroup => .subgroupTok
  | .generic => .genericTok
  | .input => .inputTok
  | .output => .outputTok
  | .external => .externTok

mutual
/-- A type; the width of a pack is kept as it is spelled. -/
inductive SlimType
  | numeric (type : NumericType)
  | bool
  | mask
  | ptr (isReference : Bool) (addressSpace : SlimAddressSpace) (pointedType : SlimType)
  | arr (elementType : SlimType) (size : Option Leaf)
  | pack (elementType : SlimType) (width : Literal)
  | record (members : SlimMembers)
  | unbound (id : String)

/-- The members of a record, with their names. -/
inductive SlimMembers
  | nil
  | cons (type : SlimType) (name : String) (rest : SlimMembers)
end

structure QualifiedType where
  isUniform : Bool
  type : SlimType

/-- The type arguments of an op, none or some in brackets; a comma may stand in front of a further
one. -/
inductive TypeArguments
  | absent
  | brackets (first : SlimType) (rest : List (Bool × SlimType))

def TypeArguments.types : TypeArguments → List SlimType
  | .absent => []
  | .brackets first rest => first :: rest.map Prod.snd

/-! ## Expressions -/

/-- The tree of an expression. A unary operator is the op `neg` or `not` or an instruction of the
front end, a binary one is the op of its row or an instruction of the front end. -/
inductive Expr
  | leaf (leaf : Leaf)
  | tuple (first second : Expr) (rest : List Expr)
  | composite (type : SlimType) (contents : List Expr)
  | primOp (op : PrimitiveOp) (typeArguments : List SlimType) (operands : List Expr)
  | extInstr (set opcode : Expr) (resultType : QualifiedType) (operands : List Expr)
  | stackAlloc (type : SlimType)
  | debugPrintf (format : Expr) (args : List Expr)
  | unary (op : UnaryOperator) (operand : Expr)
  | binary (op : InfixOperator) (lhs rhs : Expr)
  | call (callee : Expr) (args : List Expr)

/-- The text of an expression. -/
inductive Syn
  | leaf (leaf : Leaf)
  | paren (inside : Syn)
  | tuple (first second : Syn) (rest : List Syn)
  | composite (type : SlimType) (contents : List Syn)
  | primOp (op : PrimitiveOp) (typeArguments : TypeArguments) (operands : List Syn)
  | extInstr (set opcode : Syn) (resultType : QualifiedType) (operands : List Syn)
  | stackAlloc (first : SlimType) (rest : List (Bool × SlimType))
  | debugPrintf (format : Syn) (args : List Syn)
  | unary (op : UnaryOperator) (operand : Syn)
  | binary (op : InfixOperator) (lhs rhs : Syn)
  | call (callee : Syn) (args : List Syn)

mutual
/-- Parentheses leave no trace in the tree. -/
def Syn.tree : Syn → Expr
  | .leaf l => .leaf l
  | .paren inside => inside.tree
  | .tuple first second rest => .tuple first.tree second.tree (trees rest)
  | .composite type contents => .composite type (trees contents)
  | .primOp op typeArguments operands => .primOp op typeArguments.types (trees operands)
  | .extInstr set opcode resultType operands =>
      .extInstr set.tree opcode.tree resultType (trees operands)
  | .stackAlloc first _ => .stackAlloc first
  | .debugPrintf format args => .debugPrintf format.tree (trees args)
  | .unary op operand => .unary op operand.tree
  | .binary op lhs rhs => .binary op lhs.tree rhs.tree
  | .call callee args => .call callee.tree (trees args)

def trees : List Syn → List Expr
  | [] => []
  | s :: rest => s.tree :: trees rest
end

mutual
/-- The number of its parentheses that only group. -/
def Syn.parens : Syn → Nat
  | .leaf _ => 0
  | .paren inside => inside.parens + 1
  | .tuple first second rest => first.parens + second.parens + allParens rest
  | .composite _ contents => allParens contents
  | .primOp _ _ operands => allParens operands
  | .extInstr set opcode _ operands => set.parens + opcode.parens + allParens operands
  | .stackAlloc _ _ => 0
  | .debugPrintf format args => format.parens + allParens args
  | .unary _ operand => operand.parens
  | .binary _ lhs rhs => lhs.parens + rhs.parens
  | .call callee args => callee.parens + allParens args

def allParens : List Syn → Nat
  | [] => 0
  | s :: rest => s.parens + allParens rest
end

/-! ## Texts -/

def Literal.text : Literal → List Lexeme
  | .dec negative digits => (if negative then [.word .minusTok] else []) ++ [.decLit digits]
  | .hex digits => [.hexLit digits]

def Number.text (n : Number) : List Lexeme :=
  (n.type.toList.map fun type => .word type.token) ++ n.literal.text

def Leaf.text : Leaf → List Lexeme
  | .number n => n.text
  | .unbound id => [.identifier id.name]
  | .string text => [.stringLit text]
  | .trueLit => [.word .trueTok]
  | .falseLit => [.word .falseTok]
  | .unit => [.word .lparTok, .word .rparTok]

/-- The size of an array, where it has one. -/
def sizeText : Option Leaf → List Lexeme
  | none => []
  | some size => .word .semiTok :: size.text

mutual
def SlimType.text : SlimType → List Lexeme
  | .numeric type => [.word type.token]
  | .bool => [.word .boolTok]
  | .mask => [.word .maskTTok]
  | .ptr isReference addressSpace pointedType =>
      .word (if isReference then .refTok else .ptrTok) :: .word addressSpace.token ::
        pointedType.text
  | .arr elementType size =>
      .word .lsbracketTok :: (elementType.text ++ (sizeText size ++ [.word .rsbracketTok]))
  | .pack elementType width =>
      .word .packTok :: .word .lsbracketTok ::
        (elementType.text ++ .word .semiTok :: (width.text ++ [.word .rsbracketTok]))
  | .record members => .word .structTok :: .word .lbracketTok :: members.text
  | .unbound id => [.identifier id]

def SlimMembers.text : SlimMembers → List Lexeme
  | .nil => [.word .rbracketTok]
  | .cons type name rest =>
      type.text ++ .identifier name :: .word .semiTok :: rest.text
end

def QualifiedType.text (type : QualifiedType) : List Lexeme :=
  .word (if type.isUniform then .uniformTok else .varyingTok) :: type.type.text

/-- Further type arguments, and the end of them. -/
def furtherText : List (Bool × SlimType) → List Lexeme
  | [] => [.word .rsbracketTok]
  | (comma, type) :: rest =>
      (if comma then [.word .commaTok] else []) ++ (type.text ++ furtherText rest)

def TypeArguments.text : TypeArguments → List Lexeme
  | .absent => []
  | .brackets first rest => .word .lsbracketTok :: (first.text ++ furtherText rest)

/-- A name of an op. -/
def PrimitiveOp.primopName (op : PrimitiveOp) : String :=
  ((primopNames.find? fun named => named.1 == op).map Prod.snd).getD ""

mutual
def Syn.text : Syn → List Lexeme
  | .leaf l => l.text
  | .paren inside => .word .lparTok :: (inside.text ++ [.word .rparTok])
  | .tuple first second rest =>
      .word .lparTok :: (first.text ++ .word .commaTok :: (second.text ++ elementsText rest))
  | .composite type contents => .word .compositeTok :: (type.text ++ operandsText contents)
  | .primOp op typeArguments operands =>
      .identifier op.primopName :: (typeArguments.text ++ operandsText operands)
  | .extInstr set opcode resultType operands =>
      .identifier "ext_instr" :: .word .lsbracketTok :: (set.text ++ .word .commaTok ::
        (opcode.text ++ .word .commaTok :: (resultType.text ++ .word .rsbracketTok ::
          operandsText operands)))
  | .stackAlloc first rest =>
      .identifier "alloca" :: ((TypeArguments.brackets first rest).text ++
        [.word .lparTok, .word .rparTok])
  | .debugPrintf format args =>
      .identifier "debug_printf" :: .word .lparTok :: (format.text ++ elementsText args)
  | .unary op operand => .word op.token :: operand.text
  | .binary op lhs rhs => lhs.text ++ .word op.token :: rhs.text
  | .call callee args => callee.text ++ operandsText args

/-- Operands in parentheses. -/
def operandsText : List Syn → List Lexeme
  | [] => [.word .lparTok, .word .rparTok]
  | s :: rest => .word .lparTok :: (s.text ++ elementsText rest)

/-- Further operands, and the end of them. -/
def elementsText : List Syn → List Lexeme
  | [] => [.word .rparTok]
  | s :: rest => .word .commaTok :: (s.text ++ elementsText rest)
end

attribute [simp] Syn.tree trees Syn.parens allParens Syn.text operandsText elementsText

/-! ## Which texts there are

A place is the loosest operator that may stand there: a precedence of the table, -1 for a call, -2
for a unary operator, -3 for a value. -/

/-- How loosely the operator of a text binds. -/
def Syn.level : Syn → Int
  | .unary _ _ => -2
  | .call _ _ => -1
  | .binary op _ _ => op.precedence
  | _ => -3

/-- A number that begins with its sign. -/
def Leaf.signed : Leaf → Bool
  | .number ⟨none, .dec negative _⟩ => negative
  | _ => false

def Syn.signed : Syn → Bool
  | .leaf l => l.signed
  | _ => false

/-- A sign that is part of a number is read only where no operator may stand. -/
structure Fits (place : Int) (s : Syn) : Prop where
  level : s.level ≤ place
  unsigned : -3 < place → s.signed = false

/-- `accept_operand` reads expressions in the front end and values elsewhere. -/
def operandPlace (frontEnd : Bool) : Int := if frontEnd then 10 else -3

mutual
/-- Types of arrays are read in the front end only. -/
def SlimType.Formed (frontEnd : Bool) : SlimType → Prop
  | .ptr _ _ pointedType => pointedType.Formed frontEnd
  | .arr elementType _ => frontEnd = true ∧ elementType.Formed frontEnd
  | .pack elementType _ => elementType.Formed frontEnd
  | .record members => members.Formed frontEnd
  | _ => True

def SlimMembers.Formed (frontEnd : Bool) : SlimMembers → Prop
  | .nil => True
  | .cons type _ rest => type.Formed frontEnd ∧ rest.Formed frontEnd
end

def Expr.IsString : Expr → Prop
  | .leaf (.string _) => True
  | _ => False

def Expr.IsUntypedNumber : Expr → Prop
  | .leaf (.number ⟨none, _⟩) => True
  | _ => False

/-- The nodes of which `shd_get_string_literal` reads the contents. -/
def Expr.IsComposite : Expr → Prop
  | .leaf .unit => True
  | .tuple _ _ _ => True
  | .composite _ _ => True
  | _ => False

section Formed

variable (frontEnd : Bool)

/-- The texts of the grammar; without a body builder only some values can be read. -/
inductive Formed : Bool → Syn → Prop
  | leaf {bb : Bool} {leaf : Leaf} : Formed bb (.leaf leaf)
  | paren {bb : Bool} {inside : Syn} (builds : frontEnd = true → bb = true)
      (fits : Fits (operandPlace frontEnd) inside) (formed : Formed bb inside) :
      Formed bb (.paren inside)
  | tuple {bb : Bool} {first second : Syn} {rest : List Syn}
      (builds : frontEnd = true → bb = true)
      (fits : ∀ s ∈ first :: second :: rest, Fits (operandPlace frontEnd) s)
      (formed : ∀ s ∈ first :: second :: rest, Formed bb s) : Formed bb (.tuple first second rest)
  | composite {bb : Bool} {type : SlimType} {contents : List Syn}
      (builds : frontEnd = true → bb = true) (typed : type.Formed frontEnd)
      (fits : ∀ s ∈ contents, Fits (operandPlace frontEnd) s)
      (formed : ∀ s ∈ contents, Formed bb s) : Formed bb (.composite type contents)
  | primOp {op : PrimitiveOp} {typeArguments : TypeArguments} {operands : List Syn}
      (typed : ∀ type ∈ typeArguments.types, type.Formed frontEnd)
      (fits : ∀ s ∈ operands, Fits (operandPlace frontEnd) s)
      (formed : ∀ s ∈ operands, Formed true s) : Formed true (.primOp op typeArguments operands)
  | extInstr {set opcode : Syn} {resultType : QualifiedType} {operands : List Syn}
      (setFits : Fits (-3) set) (setFormed : Formed false set) (isString : set.tree.IsString)
      (opcodeFits : Fits (-3) opcode) (opcodeFormed : Formed false opcode)
      (isNumber : opcode.tree.IsUntypedNumber) (typed : resultType.type.Formed frontEnd)
      (fits : ∀ s ∈ operands, Fits (operandPlace frontEnd) s)
      (formed : ∀ s ∈ operands, Formed true s) :
      Formed true (.extInstr set opcode resultType operands)
  | stackAlloc {first : SlimType} {rest : List (Bool × SlimType)}
      (typed : ∀ type ∈ (TypeArguments.brackets first rest).types, type.Formed frontEnd) :
      Formed true (.stackAlloc first rest)
  | debugPrintf {format : Syn} {args : List Syn} (isString : ¬ format.tree.IsComposite)
      (fits : ∀ s ∈ format :: args, Fits (operandPlace frontEnd) s)
      (formed : ∀ s ∈ format :: args, Formed true s) : Formed true (.debugPrintf format args)
  | unary {op : UnaryOperator} {operand : Syn} (fits : Fits (-2) operand)
      (formed : Formed true operand) : Formed true (.unary op operand)
  | binary {op : InfixOperator} {lhs rhs : Syn} (lhsFits : Fits op.precedence lhs)
      (lhsFormed : Formed true lhs) (rhsFits : Fits (op.precedence - 1) rhs)
      (rhsFormed : Formed true rhs) : Formed true (.binary op lhs rhs)
  | call {callee : Syn} {args : List Syn} (calleeFits : Fits (-1) callee)
      (calleeFormed : Formed true callee) (fits : ∀ s ∈ args, Fits (operandPlace frontEnd) s)
      (formed : ∀ s ∈ args, Formed true s) : Formed true (.call callee args)

end Formed

/-! ## The fewest parentheses -/

instance (place : Int) (s : Syn) : Decidable (Fits place s) :=
  decidable_of_iff (s.level ≤ place ∧ (-3 < place → s.signed = false))
    ⟨fun both => ⟨both.1, both.2⟩, fun fits => ⟨fits.level, fits.unsigned⟩⟩

/-- Parentheses where a text does not fit. -/
def Syn.at (place : Int) (s : Syn) : Syn := if Fits place s then s else .paren s

mutual
/-- A text of a tree, with the parentheses that its operators need inside. -/
def minimal : Expr → Syn
  | .leaf l => .leaf l
  | .tuple first second rest => .tuple (minimal first) (minimal second) (minimals rest)
  | .composite type contents => .composite type (minimals contents)
  | .primOp op [] operands => .primOp op .absent (minimals operands)
  | .primOp op (first :: rest) operands =>
      .primOp op (.brackets first (rest.map (true, ·))) (minimals operands)
  | .extInstr set opcode resultType operands =>
      .extInstr (minimal set) (minimal opcode) resultType (minimals operands)
  | .stackAlloc type => .stackAlloc type []
  | .debugPrintf format args => .debugPrintf (minimal format) (minimals args)
  | .unary op operand => .unary op ((minimal operand).at (-2))
  | .binary op lhs rhs =>
      .binary op ((minimal lhs).at op.precedence) ((minimal rhs).at (op.precedence - 1))
  | .call callee args => .call ((minimal callee).at (-1)) (minimals args)

def minimals : List Expr → List Syn
  | [] => []
  | e :: rest => minimal e :: minimals rest
end

mutual
/-- The trees that the front end can spell: a number has no sign of its own, and what the parser
asks for as a literal is one. -/
def Expr.Valid : Expr → Prop
  | .leaf l => l.signed = false
  | .tuple first second rest => first.Valid ∧ second.Valid ∧ AllValid rest
  | .composite _ contents => AllValid contents
  | .primOp _ _ operands => AllValid operands
  | .extInstr set opcode _ operands => set.IsString ∧ opcode.IsUntypedNumber ∧ AllValid operands
  | .stackAlloc _ => True
  | .debugPrintf format args => ¬ format.IsComposite ∧ format.Valid ∧ AllValid args
  | .unary _ operand => operand.Valid
  | .binary _ lhs rhs => lhs.Valid ∧ rhs.Valid
  | .call callee args => callee.Valid ∧ AllValid args

def AllValid : List Expr → Prop
  | [] => True
  | e :: rest => e.Valid ∧ AllValid rest
end

end Shady.Slim.Parser
