import Shady.Frontend.Token
import Shady.Ir.DataType
import Shady.Ir.IntLiteral

/-!
# Integer literals

From the text of a number to its token, the untyped number of `parser.c` and the typed literal of
`infer.c`.
-/

set_option autoImplicit false

namespace Shady.Slim

/-! ## Parsing -/

/-- The types that `accept_numerical_type` accepts. -/
inductive NumericalType
  | int (type : IntType)
  | float (width : FloatSizes)
  deriving DecidableEq

/-- An `UntypedNumber`, and the type of the `ConstrainedValue` around it, if there is one. -/
structure Number where
  type : Option NumericalType
  plaintext : List Char

def numericalType : TokenTag → Option NumericalType
  | .i8Tok => some (.int ⟨.intTy8, true⟩)
  | .i16Tok => some (.int ⟨.intTy16, true⟩)
  | .i32Tok => some (.int ⟨.intTy32, true⟩)
  | .i64Tok => some (.int ⟨.intTy64, true⟩)
  | .u8Tok => some (.int ⟨.intTy8, false⟩)
  | .u16Tok => some (.int ⟨.intTy16, false⟩)
  | .u32Tok => some (.int ⟨.intTy32, false⟩)
  | .u64Tok => some (.int ⟨.intTy64, false⟩)
  | .f16Tok => some (.float .floatTy16)
  | .f32Tok => some (.float .floatTy32)
  | .f64Tok => some (.float .floatTy64)
  | _ => none

/-- `accept_numerical_type`; where the program ends with an error there is no result. -/
def acceptNumericalType (t : Tokenizer) : Option (Option NumericalType × Tokenizer) :=
  match numericalType t.current.tag with
  | some type => t.nextToken.map fun t => (some type, t)
  | none => some (none, t)

/-- `accept_token` -/
def acceptToken (tag : TokenTag) (t : Tokenizer) : Option (Bool × Tokenizer) :=
  if t.current.tag = tag then t.nextToken.map fun t => (true, t) else some (false, t)

def Tokenizer.currentText (t : Tokenizer) : List Char :=
  (t.source.drop t.current.start).take (t.current.end_ - t.current.start)

/-- `accept_numerical_literal` -/
def acceptNumericalLiteral (t : Tokenizer) : Option (Option Number × Tokenizer) := do
  let (numType, t) ← acceptNumericalType t
  let (negate, t) ← acceptToken .minusTok t
  let str := t.currentText
  match t.current.tag with
  | .hexLitTok =>
      if negate then none
      else t.nextToken.map fun t => (some ⟨numType, str⟩, t)
  | .decLitTok =>
      t.nextToken.map fun t => (some ⟨numType, if negate then '-' :: str else str⟩, t)
  | _ => if negate || numType.isSome then none else some (none, t)

/-! ## Inference -/

def isSpace (c : Char) : Bool := c ∈ [' ', '\t', '\n', '\x0b', '\x0c', '\r']

/-- The number that digits write in a base. -/
def digitsValue (base : Nat) (value : Char → Nat) (digits : List Char) : Nat :=
  digits.foldl (fun n c => base * n + value c) 0

def decimalValue (c : Char) : Nat := c.toNat - '0'.toNat

/-- `strtoll` in base 10, the nearest of the numbers that fit, and what it leaves. -/
def strtoll (s : List Char) : Int × List Char :=
  let t := s.dropWhile isSpace
  let negative := t.head? = some '-'
  let t := if negative ∨ t.head? = some '+' then t.tail else t
  let digits := t.takeWhile isDigit
  let n : Int := digitsValue 10 decimalValue digits
  if digits = [] then (0, s)
  else (max (-2 ^ 63) (min (if negative then -n else n) (2 ^ 63 - 1)), t.dropWhile isDigit)

/-- A typed literal; the value of a floating point number is not followed further. -/
inductive TypedLiteral
  | intLiteral (lit : IntLiteral)
  | floatLiteral (width : FloatSizes) (plaintext : List Char)
  deriving DecidableEq

/-- The case of `UntypedNumber` in `infer_value` -/
def inferUntypedNumber (plaintext : List Char) (expected : Option NumericalType) : TypedLiteral :=
  let (i, endptr) := strtoll plaintext
  let byText : NumericalType := if endptr = [] then .int ⟨.intTy32, true⟩ else .float .floatTy32
  match expected.getD byText with
  | .int type => .intLiteral ⟨type.width, type.isSigned, BitVec.ofInt 64 i⟩
  | .float width => .floatLiteral width plaintext

/-- `infer_value` of a number; the expected type must not be another than the one given. -/
def inferNumber (number : Number) (expected : Option NumericalType) : Option TypedLiteral :=
  match number.type with
  | some type =>
      if expected.all (· = type) then some (inferUntypedNumber number.plaintext (some type)) else none
  | none => some (inferUntypedNumber number.plaintext expected)

/-! ## Literals as they are written -/

inductive Base
  | decimal | hexadecimal
  deriving DecidableEq

def isHexDigit (c : Char) : Bool :=
  isDigit c || ('a' ≤ c && c ≤ 'f') || ('A' ≤ c && c ≤ 'F')

def hexValue (c : Char) : Nat :=
  if isDigit c then decimalValue c
  else if c ≤ 'F' then c.toNat - 'A'.toNat + 10
  else c.toNat - 'a'.toNat + 10

def Base.isDigit : Base → Char → Bool
  | .decimal => Slim.isDigit
  | .hexadecimal => isHexDigit

/-- An integer literal: a sign, the base and at least one digit. -/
structure IntegerText where
  negative : Bool
  base : Base
  digits : List Char
  nonempty : digits ≠ []
  proper : ∀ c ∈ digits, base.isDigit c = true

namespace IntegerText
variable (lit : IntegerText)

def sign : List Char := if lit.negative then ['-'] else []

/-- The literal without its sign. -/
def text : List Char :=
  match lit.base with
  | .decimal => lit.digits
  | .hexadecimal => '0' :: 'x' :: lit.digits

def tag : TokenTag :=
  match lit.base with
  | .decimal => .decLitTok
  | .hexadecimal => .hexLitTok

/-- The number written. -/
def number : Int :=
  let n : Int :=
    match lit.base with
    | .decimal => digitsValue 10 decimalValue lit.digits
    | .hexadecimal => digitsValue 16 hexValue lit.digits
  if lit.negative then -n else n

/-- The source with the tokenizer at a place of it. -/
def tokenizerAt (pre rest : List Char) (line lastLinePos : Nat) (current : Token) (pos : Nat) :
    Tokenizer :=
  ⟨pre ++ lit.sign ++ lit.text ++ rest, pos, line, lastLinePos, current⟩

/-- The literal without its sign is one token, and what is inferred at an integer type is the
canonical literal for the number written, modulo the width of the type. -/
def Kept (type : IntType) (pre rest : List Char) (line lastLinePos : Nat) (current : Token) : Prop :=
  let start := pre.length + lit.sign.length
  let tokenizer := lit.tokenizerAt pre rest line lastLinePos current
  (∃ t, (tokenizer start).nextToken = some t ∧
    t.current = ⟨lit.tag, start, start + lit.text.length⟩ ∧ t.pos = start + lit.text.length) ∧
  ∀ first number last, (tokenizer pre.length).nextToken = some first →
    acceptNumericalLiteral first = some (some number, last) →
      inferNumber number (some (.int type)) =
        some (.intLiteral (canonicalLiteral type lit.number))

end IntegerText

/-! ## When a literal is kept -/

/-- The digits of a hexadecimal literal look like the rest of a decimal number, which a sign does
not continue either. -/
def LooksDecimal (digits rest : List Char) : Prop :=
  ∃ ds es : List Char, (∀ c ∈ ds, isDigit c = true) ∧ (∀ c ∈ es, isDigit c = true) ∧
    (digits = ds ∨ digits = ds ++ ['f'] ∨ digits = ds ++ 'e' :: (es ++ ['f']) ∨
      digits = ds ++ 'e' :: es ∧ (es = [] → ∀ c ∈ rest.head?, c ≠ '-' ∧ c ≠ '+'))

/-- The number fits a narrow type, or agrees with the nearest number of 64 bits. -/
def FitsParsed (width : IntSizes) (z : Int) : Prop :=
  match width with
  | .intTy64 =>
      (-2 ^ 63 ≤ z ∧ z < 2 ^ 63) ∨ (2 ^ 63 ≤ z ∧ z % 2 ^ 64 = 2 ^ 63 - 1) ∨
        (z < -2 ^ 63 ∧ z % 2 ^ 64 = 2 ^ 63)
  | _ => 0 ≤ z ∧ z < 2 ^ width.bits

/-- A decimal literal fits; a hexadecimal one looks decimal, and has a sign, which is rejected, or
is a multiple of the modulus. -/
def IntegerText.Fits (lit : IntegerText) (width : IntSizes) (rest : List Char) : Prop :=
  match lit.base with
  | .decimal => FitsParsed width lit.number
  | .hexadecimal =>
      LooksDecimal lit.digits rest ∧ (lit.negative = true ∨ 2 ^ width.bits ∣ lit.number)

/-- The text does not continue an identifier or a number. -/
def Delimited (rest : List Char) : Prop :=
  ∀ c ∈ rest.head?, canMakeUpIdentifier c = false ∧ c ≠ '.'

/-! ## Characters -/

theorem isDigit_iff (c : Char) : isDigit c = true ↔ 48 ≤ c.toNat ∧ c.toNat ≤ 57 := by
  simp only [isDigit, Bool.and_eq_true, decide_eq_true_eq, Char.le_def, UInt32.le_iff_toNat_le]
  exact Iff.rfl

theorem ne_of_isDigit {c d : Char} (digit : isDigit c = true) (other : isDigit d = false) : c ≠ d := by
  intro same
  rw [same, other] at digit
  cases digit

theorem canStartIdentifier_of_isDigit {c : Char} (digit : isDigit c = true) :
    canStartIdentifier c = false := by
  have between := (isDigit_iff c).mp digit
  have underscore : c ≠ '_' := ne_of_isDigit digit (by decide)
  simp only [canStartIdentifier, isAlpha, Bool.or_eq_false_iff, Bool.and_eq_false_iff,
    decide_eq_false_iff_not, Char.le_def, UInt32.le_iff_toNat_le, beq_eq_false_iff_ne]
  have upper : c.val.toNat = c.toNat := rfl
  have letterA : 'A'.val.toNat = 65 := rfl
  have lettera : 'a'.val.toNat = 97 := rfl
  refine ⟨⟨Or.inl ?_, Or.inl ?_⟩, underscore⟩
  · omega
  · omega

theorem not_digit_of_delimited {c : Char} (apart : canMakeUpIdentifier c = false ∧ c ≠ '.') :
    isDigit c = false ∧ c ≠ '.' ∧ c ≠ 'e' ∧ c ≠ 'f' ∧ c ≠ 'x' := by
  have parts := Bool.or_eq_false_iff.mp apart.1
  have letter : ∀ d, canStartIdentifier d = true → c ≠ d := by
    intro d starts same
    rw [same, starts] at parts
    exact nomatch parts.1
  exact ⟨parts.2, apart.2, letter 'e' (by decide), letter 'f' (by decide), letter 'x' (by decide)⟩

/-! ## The size of a number -/

theorem charAt_eq_headD (s : List Char) (i : Nat) : charAt s i = (s.drop i).headD '\x00' := by
  rw [charAt, List.getD_eq_getElem?_getD, List.headD_eq_head?_getD, List.head?_drop]

/-- The digits end where the list does, or at another character. -/
def StopsDigits (s : List Char) : Prop := isDigit (s.headD '\x00') = false

theorem takeWhile_digits {ds s : List Char} (digits : ∀ c ∈ ds, isDigit c = true)
    (stops : StopsDigits s) : (ds ++ s).takeWhile isDigit = ds := by
  rw [List.takeWhile_append_of_pos digits]
  cases s with
  | nil => exact List.append_nil ds
  | cons c s =>
      have other : ¬ isDigit c = true := by
        rw [show isDigit c = false from stops]
        exact Bool.false_ne_true
      rw [List.takeWhile_cons_of_neg other, List.append_nil]

theorem scan_digits {u ds s slice : List Char} (shape : slice = u ++ (ds ++ s))
    (digits : ∀ c ∈ ds, isDigit c = true) (stops : StopsDigits s) :
    scan isDigit slice u.length = (u ++ ds).length := by
  rw [scan, shape, List.drop_left, takeWhile_digits digits stops, List.length_append]

theorem charAt_split {u s slice : List Char} (shape : slice = u ++ s) :
    charAt slice u.length = s.headD '\x00' := by
  rw [charAt_eq_headD, shape, List.drop_left]

/-- What an exponent and a suffix add to a number. -/
def exponentSize (s : List Char) : Nat :=
  match s with
  | 'e' :: s =>
      let signed := if s.headD '\x00' = '-' ∨ s.headD '\x00' = '+' then 1 else 0
      let digits := ((s.drop signed).takeWhile isDigit).length
      let suffixed := if ((s.drop signed).drop digits).headD '\x00' = 'f' then 1 else 0
      1 + signed + digits + suffixed
  | _ => if s.headD '\x00' = 'f' then 1 else 0

/-- The prefix that the tokenizer skips. -/
def hexPrefix (slice : List Char) : List Char :=
  if charAt slice 0 = '0' ∧ charAt slice 1 = 'x' then ['0', 'x'] else []

theorem exponentSize_of_ne {s : List Char} (other : s.headD '\x00' ≠ 'e') :
    exponentSize s = if s.headD '\x00' = 'f' then 1 else 0 := by
  unfold exponentSize
  split
  · exact absurd rfl other
  · rfl

theorem numberSize_eq {slice ds s : List Char} (shape : slice = hexPrefix slice ++ (ds ++ s))
    (digits : ∀ c ∈ ds, isDigit c = true) (stops : StopsDigits s) (point : s.headD '\x00' ≠ '.') :
    numberSize slice = (hexPrefix slice ++ ds).length + exponentSize s := by
  have start : (if charAt slice 0 = '0' ∧ charAt slice 1 = 'x' then 2 else 0) =
      (hexPrefix slice).length := by
    rw [hexPrefix]
    split <;> rfl
  have split : slice = (hexPrefix slice ++ ds) ++ s := by
    rw [List.append_assoc]
    exact shape
  have again : scan isDigit slice (hexPrefix slice ++ ds).length = (hexPrefix slice ++ ds).length := by
    have none_ := @scan_digits _ [] _ _ split (by simp) stops
    rw [List.append_nil] at none_
    exact none_
  rw [numberSize]
  simp only [start, scan_digits shape digits stops, charAt_split split, if_neg point, again]
  generalize hexPrefix slice ++ ds = u at split ⊢
  by_cases exponent : s.headD '\x00' = 'e'
  · cases s with
    | nil => exact absurd exponent (by decide)
    | cons c s =>
        have letter : c = 'e' := exponent
        subst letter
        rw [if_pos exponent]
        have behind : slice = (u ++ ['e']) ++ s := by
          rw [List.append_assoc]
          exact split
        have next : charAt slice (u.length + 1) = s.headD '\x00' := by
          have at_ := charAt_split behind
          rw [List.length_append, List.length_singleton] at at_
          exact at_
        rw [next]
        simp only [exponentSize]
        generalize signedSize : (if s.headD '\x00' = '-' ∨ s.headD '\x00' = '+' then 1 else 0) = signed
        have sum : (if s.headD '\x00' = '-' ∨ s.headD '\x00' = '+' then u.length + 1 + 1
            else u.length + 1) = u.length + 1 + signed := by
          rw [← signedSize]
          split <;> rfl
        have after : slice.drop (u.length + 1 + signed) = s.drop signed := by
          rw [behind, ← List.drop_drop]
          congr 1
          rw [show u.length + 1 = (u ++ ['e']).length by simp, List.drop_left]
        rw [sum, scan, after, charAt_eq_headD, ← List.drop_drop, after]
        split <;> omega
  · rw [if_neg exponent, charAt_split split, exponentSize_of_ne exponent]
    split <;> omega

/-- A number whose digits end the literal is as long as they are. -/
theorem exponentSize_delimited {rest : List Char} (delimited : Delimited rest) :
    exponentSize rest = 0 ∧ StopsDigits rest ∧ rest.headD '\x00' ≠ '.' := by
  cases rest with
  | nil => exact ⟨rfl, rfl, by decide⟩
  | cons c rest =>
      have other := not_digit_of_delimited (delimited c rfl)
      have size := @exponentSize_of_ne (c :: rest) other.2.2.1
      exact ⟨size.trans (if_neg other.2.2.2.1), other.1, other.2.1⟩

/-! ## Hexadecimal digits in a number -/

/-- Digits of the exponent, and what is behind them. -/
theorem exponentSize_exponent {es rest : List Char} (digits : ∀ c ∈ es, isDigit c = true)
    (stops : StopsDigits rest) (unsigned : (es ++ rest).headD '\x00' ≠ '-' ∧ (es ++ rest).headD '\x00' ≠ '+') :
    exponentSize ('e' :: (es ++ rest)) =
      1 + es.length + (if rest.headD '\x00' = 'f' then 1 else 0) := by
  have none_ : ¬ ((es ++ rest).headD '\x00' = '-' ∨ (es ++ rest).headD '\x00' = '+') := by
    rintro (minus | plus)
    · exact unsigned.1 minus
    · exact unsigned.2 plus
  simp only [exponentSize, if_neg none_, List.drop_zero, takeWhile_digits digits stops, List.drop_left]

theorem headD_digits {es rest : List Char} {d : Char} (digits : ∀ c ∈ es, isDigit c = true)
    (other : isDigit d = false) (behind : es = [] → rest.headD '\x00' ≠ d) :
    (es ++ rest).headD '\x00' ≠ d := by
  cases es with
  | nil => exact behind rfl
  | cons c es => exact ne_of_isDigit (digits c List.mem_cons_self) other

/-- What follows the digits of a hexadecimal literal is taken as a whole if and only if it is a suffix
or an exponent. -/
theorem exponentSize_exact {tail rest : List Char} (hexadecimal : ∀ c ∈ tail, isHexDigit c = true)
    (delimited : Delimited rest) (stops : StopsDigits (tail ++ rest)) :
    exponentSize (tail ++ rest) = tail.length ↔
      tail = [] ∨ tail = ['f'] ∨ ∃ es, (∀ c ∈ es, isDigit c = true) ∧
        (tail = 'e' :: (es ++ ['f']) ∨
          tail = 'e' :: es ∧ (es = [] → ∀ c ∈ rest.head?, c ≠ '-' ∧ c ≠ '+')) := by
  have ended := exponentSize_delimited delimited
  cases tail with
  | nil => exact iff_of_true ended.1 (Or.inl rfl)
  | cons c tail =>
      by_cases exponent : c = 'e'
      · subst exponent
        -- the digits behind the exponent, and the first character that is none
        obtain ⟨es, more, shape, digits, stops'⟩ : ∃ es more, tail = es ++ more ∧
            (∀ c ∈ es, isDigit c = true) ∧ StopsDigits (more ++ rest) := by
          refine ⟨tail.takeWhile isDigit, tail.dropWhile isDigit,
            List.takeWhile_append_dropWhile.symm, List.all_eq_true.mp List.all_takeWhile, ?_⟩
          cases left : tail.dropWhile isDigit with
          | nil => exact ended.2.1
          | cons d more =>
              have nonempty : tail.dropWhile isDigit ≠ [] := by
                rw [left]
                exact List.cons_ne_nil d more
              have first := List.head_dropWhile_not isDigit nonempty
              simp only [left, List.head_cons] at first
              exact first
        subst shape
        have suffix : more.headD '\x00' = 'f' ∨ (more ++ rest).headD '\x00' ≠ 'f' := by
          cases more with
          | nil =>
              right
              cases rest with
              | nil => decide
              | cons c rest => exact (not_digit_of_delimited (delimited c rfl)).2.2.2.1
          | cons d more => exact Classical.em _
        by_cases signed : es = [] ∧ more = [] ∧ ∃ c ∈ rest.head?, c = '-' ∨ c = '+'
        · obtain ⟨rfl, rfl, sign, first, isSign⟩ := signed
          refine iff_of_false ?_ ?_
          · cases rest with
            | nil => exact nomatch first
            | cons d rest =>
                cases first
                have condition : ('-' = sign ∨ '+' = sign) ∨ True := Or.inr trivial
                intro same
                have taken : (sign :: rest).headD '\x00' = '-' ∨ (sign :: rest).headD '\x00' = '+' :=
                  isSign
                simp only [List.append_nil, List.cons_append, List.nil_append, exponentSize,
                  if_pos taken, List.length_singleton] at same
                omega
          · rintro (empty | suffix | ⟨es, digits, last | ⟨shape, unsigned⟩⟩)
            · exact nomatch empty
            · exact absurd (List.cons.inj suffix).1 (by decide)
            · have length := congrArg List.length last
              simp at length
            · have none_ : es = [] := (List.cons.inj shape).2.symm
              have differs := unsigned none_ sign first
              cases isSign with
              | inl minus => exact differs.1 minus
              | inr plus => exact differs.2 plus
        · have behind : ∀ d, d = '-' ∨ d = '+' → es = [] → (more ++ rest).headD '\x00' ≠ d := by
            intro d isSign none_ same
            cases more with
            | nil =>
                cases rest with
                | nil =>
                    have zero : '\x00' = d := same
                    rw [← zero] at isSign
                    exact absurd isSign (by decide)
                | cons e rest =>
                    have first : e = d := same
                    exact signed ⟨none_, rfl, e, rfl, first ▸ isSign⟩
            | cons e more =>
                have first : e = d := same
                have hex := hexadecimal e (List.mem_cons_of_mem _
                  (List.mem_append_right es List.mem_cons_self))
                cases isSign with
                | inl minus =>
                    rw [first, minus] at hex
                    exact absurd hex (by decide)
                | inr plus =>
                    rw [first, plus] at hex
                    exact absurd hex (by decide)
          have size := exponentSize_exponent digits stops'
            ⟨headD_digits digits (by decide) (behind '-' (Or.inl rfl)),
              headD_digits digits (by decide) (behind '+' (Or.inr rfl))⟩
          rw [List.cons_append, List.append_assoc, size]
          constructor
          · intro same
            right; right
            rw [List.length_cons, List.length_append] at same
            cases more with
            | nil =>
                refine ⟨es, digits, Or.inr ⟨by rw [List.append_nil], ?_⟩⟩
                intro none_ c first
                by_contra sign
                apply signed
                refine ⟨none_, rfl, c, first, ?_⟩
                by_contra others
                push Not at others
                exact sign others
            | cons d more =>
                have letter : d = 'f' := by
                  by_contra other
                  have none_ : ¬ ((d :: more) ++ rest).headD '\x00' = 'f' := other
                  rw [if_neg none_, List.length_cons] at same
                  omega
                have last : more = [] := by
                  have one : (if ((d :: more) ++ rest).headD '\x00' = 'f' then 1 else 0) ≤ 1 := by
                    split <;> omega
                  rw [List.length_cons] at same
                  exact List.length_eq_zero_iff.mp (by omega)
                refine ⟨es, digits, Or.inl ?_⟩
                rw [letter, last]
          · rintro (empty | suffixed | ⟨fs, more_digits, last | ⟨shape, -⟩⟩)
            · exact nomatch empty
            · exact absurd (List.cons.inj suffixed).1 (by decide)
            · have split : es ++ more = fs ++ ['f'] := (List.cons.inj last).2
              have same : es = fs := by
                have left := @takeWhile_digits es more digits ?_
                · rw [split, takeWhile_digits more_digits (show StopsDigits ['f'] from rfl)] at left
                  exact left.symm
                · cases more with
                  | nil => exact rfl
                  | cons d more => exact stops'
              subst same
              have single : more = ['f'] := List.append_cancel_left split
              subst single
              have letter : (['f'] ++ rest).headD '\x00' = 'f' := rfl
              rw [if_pos letter, List.length_cons, List.length_append, List.length_singleton]
              omega
            · have split : es ++ more = fs := (List.cons.inj shape).2
              have none_ : more = [] := by
                cases more with
                | nil => rfl
                | cons d more =>
                    have digit := more_digits d (split ▸ List.mem_append_right es List.mem_cons_self)
                    rw [show isDigit d = false from stops'] at digit
                    cases digit
              subst none_
              have plain : ¬ ([] ++ rest).headD '\x00' = 'f' := by
                cases suffix with
                | inl letter => exact absurd letter (by decide)
                | inr other => exact other
              rw [if_neg plain, List.append_nil, List.length_cons]
              omega
      · have size := @exponentSize_of_ne ((c :: tail) ++ rest) exponent
        rw [size]
        have second : ¬ ∃ es, (∀ c ∈ es, isDigit c = true) ∧
            (c :: tail = 'e' :: (es ++ ['f']) ∨
              c :: tail = 'e' :: es ∧ (es = [] → ∀ c ∈ rest.head?, c ≠ '-' ∧ c ≠ '+')) := by
          rintro ⟨es, -, shape | ⟨shape, -⟩⟩
          · exact exponent (List.cons.inj shape).1
          · exact exponent (List.cons.inj shape).1
        by_cases suffix : c = 'f'
        · subst suffix
          have letter : ('f' :: tail ++ rest).headD '\x00' = 'f' := rfl
          rw [if_pos letter, List.length_cons]
          constructor
          · intro same
            right; left
            rw [List.length_eq_zero_iff.mp (show tail.length = 0 by omega)]
          · rintro (empty | single | exponents)
            · exact nomatch empty
            · rw [(List.cons.inj single).2]
              rfl
            · exact absurd exponents second
        · have none_ : ¬ ((c :: tail) ++ rest).headD '\x00' = 'f' := suffix
          rw [if_neg none_]
          refine iff_of_false (by simp) ?_
          rintro (empty | single | exponents)
          · exact nomatch empty
          · exact suffix (List.cons.inj single).1
          · exact second exponents

/-! ## The tokens of a literal -/

/-- A number is read from its first digit on. -/
theorem nextToken_number {t : Tokenizer} {c : Char} {more : List Char} (next : t.slice = c :: more)
    (digit : isDigit c = true) :
    t.nextToken = some (t.accept (numberTag t.slice) t.pos (numberSize t.slice)
      (numberSize t.slice)) := by
  have visible : c ≠ '\n' ∧ isWhitespace c = false ∧ c ≠ '/' := by
    refine ⟨ne_of_isDigit digit (by decide), ?_, ne_of_isDigit digit (by decide)⟩
    have noDigit : [' ', '\t', '\r'].all (fun d => !isDigit d) = true := by decide
    have blank : ∀ d ∈ [' ', '\t', '\r'], c ≠ d := by
      intro d member
      apply ne_of_isDigit digit
      exact Bool.not_eq_true' _ ▸ List.all_eq_true.mp noDigit d member
    exact decide_eq_false fun member => blank c member rfl
  have stays := eatWhitespaceAndComments_stays next visible
  have inside := pos_lt_of_slice next
  have first : charAt t.slice 0 = c := by
    rw [next]
    rfl
  rw [Tokenizer.nextToken, stays, if_neg inside.ne]
  simp only [first, canStartIdentifier_of_isDigit digit, digit]
  rfl

theorem fixedToken_minus (more : List Char) :
    fixedToken ('-' :: more) none = some (.minusTok, 1) := by
  have only : ∀ entry ∈ tokenStrings,
      (entry.2.toList.isPrefixOf ('-' :: more) && true) = decide (entry.2 = "-") := by
    have starts : ∀ entry ∈ tokenStrings, entry.2.toList ≠ [] ∧
        (entry.2.toList.head? = some '-' → entry.2 = "-") := by
      decide +kernel
    intro entry member
    obtain ⟨nonempty, minus⟩ := starts entry member
    by_cases same : entry.2 = "-"
    · rw [same, decide_eq_true rfl]
      rfl
    · rw [decide_eq_false same, Bool.and_true]
      cases shape : entry.2.toList with
      | nil => exact absurd shape nonempty
      | cons c text =>
          have other : c ≠ '-' := by
            intro first
            rw [shape, first] at minus
            exact same (minus rfl)
          rw [List.isPrefixOf_cons_cons, beq_false_of_ne other, Bool.false_and]
  have found : (tokenStrings.find? fun entry => entry.2.toList.isPrefixOf ('-' :: more) && true) =
      tokenStrings.find? fun entry => decide (entry.2 = "-") := by
    rw [← List.head?_filter, ← List.head?_filter, List.filter_congr only]
  have listed : (tokenStrings.find? fun entry => decide (entry.2 = "-")) = some (.minusTok, "-") := by
    decide
  have searched : fixedToken ('-' :: more) none =
      (tokenStrings.find? fun entry => entry.2.toList.isPrefixOf ('-' :: more) && true).map
        fun entry => (entry.1, entry.2.length) := rfl
  rw [searched, found, listed]
  rfl

/-- A minus is a token of its own. -/
theorem nextToken_minus {t : Tokenizer} {more : List Char} (next : t.slice = '-' :: more) :
    t.nextToken = some (t.accept .minusTok t.pos 1 1) := by
  have stays := eatWhitespaceAndComments_stays next (by decide)
  have inside := pos_lt_of_slice next
  have first : charAt t.slice 0 = '-' := by
    rw [next]
    rfl
  have fixed : fixedToken t.slice none = some (.minusTok, 1) := by
    rw [next]
    exact fixedToken_minus more
  rw [Tokenizer.nextToken, stays, if_neg inside.ne]
  simp only [first, fixed]
  rfl

namespace IntegerText
variable (lit : IntegerText)

theorem text_digit : ∃ c more, lit.text = c :: more ∧ isDigit c = true := by
  cases base : lit.base with
  | decimal =>
      obtain ⟨c, more, shape⟩ := List.exists_cons_of_ne_nil lit.nonempty
      refine ⟨c, more, ?_, ?_⟩
      · rw [text, base]
        exact shape
      · have proper := lit.proper c (shape ▸ List.mem_cons_self)
        rw [base] at proper
        exact proper
  | hexadecimal =>
      refine ⟨'0', 'x' :: lit.digits, ?_, rfl⟩
      rw [text, base]

/-- The prefix is that of the base. -/
theorem hexPrefix_text {rest : List Char} (delimited : Delimited rest) :
    numberTag (lit.text ++ rest) = lit.tag ∧
      lit.text ++ rest = hexPrefix (lit.text ++ rest) ++ (lit.digits ++ rest) := by
  cases base : lit.base with
  | hexadecimal =>
      rw [text, tag, base]
      exact ⟨rfl, rfl⟩
  | decimal =>
      have plain : ¬ (charAt (lit.digits ++ rest) 0 = '0' ∧ charAt (lit.digits ++ rest) 1 = 'x') := by
        rintro ⟨-, second⟩
        obtain ⟨c, more, shape⟩ := List.exists_cons_of_ne_nil lit.nonempty
        have proper := lit.proper
        rw [base, shape] at proper
        rw [shape] at second
        cases more with
        | cons d more =>
            have digit : isDigit d = true := proper d (List.mem_cons_of_mem _ List.mem_cons_self)
            exact ne_of_isDigit digit (by decide) second
        | nil =>
            cases rest with
            | nil => exact absurd (show '\x00' = 'x' from second) (by decide)
            | cons d rest => exact (not_digit_of_delimited (delimited d rfl)).2.2.2.2 second
      rw [text, tag, base]
      simp only [numberTag, hexPrefix, if_neg plain, List.nil_append, true_and]

/-- A decimal literal is read as a whole; a hexadecimal one where it looks decimal. -/
theorem numberSize_text {rest : List Char} (delimited : Delimited rest) :
    numberSize (lit.text ++ rest) = lit.text.length ↔
      (lit.base = .hexadecimal → LooksDecimal lit.digits rest) := by
  have shape := (lit.hexPrefix_text delimited).2
  have ended := exponentSize_delimited delimited
  have prefixed : hexPrefix (lit.text ++ rest) ++ lit.digits = lit.text := by
    have cancel : (hexPrefix (lit.text ++ rest) ++ lit.digits) ++ rest = lit.text ++ rest := by
      rw [List.append_assoc]
      exact shape.symm
    exact List.append_cancel_right cancel
  cases base : lit.base with
  | decimal =>
      refine iff_of_true ?_ (fun other => nomatch other)
      have digits : ∀ c ∈ lit.digits, isDigit c = true := by
        have proper := lit.proper
        rw [base] at proper
        exact proper
      rw [numberSize_eq shape digits ended.2.1 ended.2.2, prefixed, ended.1, Nat.add_zero]
  | hexadecimal =>
      have proper := lit.proper
      rw [base] at proper
      obtain ⟨ds, tail, split, digits, stops, hexadecimal⟩ : ∃ ds tail, lit.digits = ds ++ tail ∧
          (∀ c ∈ ds, isDigit c = true) ∧ StopsDigits (tail ++ rest) ∧
            ∀ c ∈ tail, isHexDigit c = true := by
        refine ⟨lit.digits.takeWhile isDigit, lit.digits.dropWhile isDigit,
          List.takeWhile_append_dropWhile.symm, List.all_eq_true.mp List.all_takeWhile, ?_,
          fun c member => proper c (List.dropWhile_suffix _ |>.subset member)⟩
        cases left : lit.digits.dropWhile isDigit with
        | nil => exact ended.2.1
        | cons d more =>
            have nonempty : lit.digits.dropWhile isDigit ≠ [] := by
              rw [left]
              exact List.cons_ne_nil d more
            have first := List.head_dropWhile_not isDigit nonempty
            simp only [left, List.head_cons] at first
            exact first
      have point : (tail ++ rest).headD '\x00' ≠ '.' := by
        cases tail with
        | nil => exact ended.2.2
        | cons c tail =>
            intro same
            have hex := hexadecimal c List.mem_cons_self
            rw [show c = '.' from same] at hex
            exact absurd hex (by decide)
      have whole : lit.text ++ rest = hexPrefix (lit.text ++ rest) ++ (ds ++ (tail ++ rest)) := by
        rw [← List.append_assoc ds, ← split]
        exact shape
      have length : lit.text.length = (hexPrefix (lit.text ++ rest) ++ ds).length + tail.length := by
        have total := congrArg List.length prefixed
        rw [split] at total
        simp only [List.length_append] at total ⊢
        omega
      have exact_ := exponentSize_exact hexadecimal delimited stops
      rw [numberSize_eq whole digits stops point, length, Nat.add_left_cancel_iff, exact_, split]
      simp only [true_implies]
      constructor
      · rintro (rfl | rfl | ⟨es, more, rfl | ⟨rfl, unsigned⟩⟩)
        · exact ⟨ds, [], digits, by simp, Or.inl (List.append_nil ds)⟩
        · exact ⟨ds, [], digits, by simp, Or.inr (Or.inl rfl)⟩
        · exact ⟨ds, es, digits, more, Or.inr (Or.inr (Or.inl rfl))⟩
        · exact ⟨ds, es, digits, more, Or.inr (Or.inr (Or.inr ⟨rfl, unsigned⟩))⟩
      · rintro ⟨ds', es, digits', more, shapes⟩
        -- both splits end with the first character that is no digit
        have unique : ∀ s, StopsDigits s → (ds ++ tail) ++ rest = ds' ++ s → tail ++ rest = s := by
          intro s stops' same
          have left : ds = ds' := by
            have here := takeWhile_digits digits stops
            rw [← List.append_assoc, same, takeWhile_digits digits' stops'] at here
            exact here.symm
          rw [left, List.append_assoc] at same
          exact List.append_cancel_left same
        rcases shapes with plain | suffixed | both | ⟨exponent, unsigned⟩
        · left
          have rests := unique rest ended.2.1 (by rw [plain])
          exact List.append_cancel_right (rests.trans (List.nil_append rest).symm)
        · right; left
          have rests := unique (['f'] ++ rest) rfl (by rw [suffixed, List.append_assoc])
          exact List.append_cancel_right rests
        · right; right
          refine ⟨es, more, Or.inl ?_⟩
          have rests := unique (('e' :: (es ++ ['f'])) ++ rest) rfl (by rw [both, List.append_assoc])
          exact List.append_cancel_right rests
        · right; right
          refine ⟨es, more, Or.inr ⟨?_, unsigned⟩⟩
          have rests := unique (('e' :: es) ++ rest) rfl (by rw [exponent, List.append_assoc])
          exact List.append_cancel_right rests

end IntegerText

/-! ## The value of a literal -/

theorem isSpace_of_isDigit {c : Char} (digit : isDigit c = true) : isSpace c = false := by
  have noDigit : [' ', '\t', '\n', '\x0b', '\x0c', '\r'].all (fun d => !isDigit d) = true := by
    decide
  have blank : ∀ d ∈ [' ', '\t', '\n', '\x0b', '\x0c', '\r'], c ≠ d := by
    intro d member
    apply ne_of_isDigit digit
    exact Bool.not_eq_true' _ ▸ List.all_eq_true.mp noDigit d member
  exact decide_eq_false fun member => blank c member rfl

theorem dropWhile_isSpace {c : Char} (visible : isSpace c = false) (s : List Char) :
    (c :: s).dropWhile isSpace = c :: s := by
  rw [List.dropWhile_cons_of_neg (by rw [visible]; exact Bool.false_ne_true)]

theorem strtoll_digits {ds s : List Char} (nonempty : ds ≠ []) (digits : ∀ c ∈ ds, isDigit c = true)
    (stops : StopsDigits s) :
    (strtoll (ds ++ s)).1 = max (-2 ^ 63) (min (digitsValue 10 decimalValue ds : Int) (2 ^ 63 - 1)) := by
  obtain ⟨c, more, shape⟩ := List.exists_cons_of_ne_nil nonempty
  have digit : isDigit c = true := digits c (shape ▸ List.mem_cons_self)
  have visible : (ds ++ s).dropWhile isSpace = ds ++ s := by
    rw [shape, List.cons_append]
    exact dropWhile_isSpace (isSpace_of_isDigit digit) _
  have first : (ds ++ s).head? = some c := by
    rw [shape]
    rfl
  have minus : ¬ c = '-' := ne_of_isDigit digit (by decide)
  have plus : ¬ c = '+' := ne_of_isDigit digit (by decide)
  rw [strtoll]
  simp only [visible, first, Option.some.injEq, minus, plus, or_self, if_false,
    takeWhile_digits digits stops, if_neg nonempty]

theorem strtoll_minus {ds s : List Char} (nonempty : ds ≠ []) (digits : ∀ c ∈ ds, isDigit c = true)
    (stops : StopsDigits s) :
    (strtoll ('-' :: (ds ++ s))).1 =
      max (-2 ^ 63) (min (-(digitsValue 10 decimalValue ds : Int)) (2 ^ 63 - 1)) := by
  have visible : ('-' :: (ds ++ s)).dropWhile isSpace = '-' :: (ds ++ s) :=
    dropWhile_isSpace (by decide) _
  rw [strtoll]
  simp only [visible, List.head?_cons, true_or, if_true, List.tail_cons,
    takeWhile_digits digits stops, if_neg nonempty]

/-- A hexadecimal literal is read up to its `x`. -/
theorem strtoll_hexadecimal (s : List Char) : (strtoll ('0' :: 'x' :: s)).1 = 0 := by
  have value := @strtoll_digits ['0'] ('x' :: s) (by simp)
    (List.all_eq_true.mp (by decide)) rfl
  exact value.trans (by decide)

/-- The literal inferred is canonical if and only if the number read has its pattern. -/
theorem inferUntypedNumber_iff (plaintext : List Char) (type : IntType) (z : Int) :
    inferUntypedNumber plaintext (some (.int type)) = .intLiteral (canonicalLiteral type z) ↔
      (strtoll plaintext).1 % 2 ^ 64 = type.pattern z := by
  have value : ((BitVec.ofInt 64 (strtoll plaintext).1).toNat : Int) =
      (strtoll plaintext).1 % 2 ^ 64 := by
    rw [BitVec.toNat_ofInt, Int.toNat_of_nonneg (Int.emod_nonneg _ (by norm_num))]
    norm_num
  rw [← value, ← eq_canonicalLiteral_iff]
  exact ⟨fun same => TypedLiteral.intLiteral.inj same, congrArg TypedLiteral.intLiteral⟩

/-- The nearest number of 64 bits has the pattern of a number. -/
theorem clamp_exact (type : IntType) (z : Int) :
    max (-2 ^ 63) (min z (2 ^ 63 - 1)) % 2 ^ 64 = type.pattern z ↔ FitsParsed type.width z := by
  rw [IntType.pattern, TwosComplement.residue]
  cases width : type.width with
  | intTy64 =>
      change _ % 2 ^ 64 = z % 2 ^ 64 ↔ (_ ∨ _)
      omega
  | intTy8 =>
      change _ % 2 ^ 64 = z % 2 ^ 8 ↔ 0 ≤ z ∧ z < 2 ^ 8
      omega
  | intTy16 =>
      change _ % 2 ^ 64 = z % 2 ^ 16 ↔ 0 ≤ z ∧ z < 2 ^ 16
      omega
  | intTy32 =>
      change _ % 2 ^ 64 = z % 2 ^ 32 ↔ 0 ≤ z ∧ z < 2 ^ 32
      omega

namespace IntegerText
variable (lit : IntegerText)

/-- What the literal is for `strtoll`. -/
def plaintext : List Char := lit.sign ++ lit.text

theorem strtoll_decimal (decimal : lit.base = .decimal) :
    (strtoll lit.plaintext).1 = max (-2 ^ 63) (min lit.number (2 ^ 63 - 1)) := by
  have digits : ∀ c ∈ lit.digits, isDigit c = true := by
    have proper := lit.proper
    rw [decimal] at proper
    exact proper
  rw [plaintext, sign, text, number, decimal]
  cases lit.negative with
  | true =>
      have value := strtoll_minus lit.nonempty digits (show StopsDigits [] from rfl)
      rw [List.append_nil] at value
      exact value
  | false =>
      have value := strtoll_digits lit.nonempty digits (show StopsDigits [] from rfl)
      rw [List.append_nil] at value
      exact value

variable (pre rest : List Char) (line lastLinePos : Nat) (current : Token)

theorem slice_tokenizerAt :
    (lit.tokenizerAt pre rest line lastLinePos current (pre.length + lit.sign.length)).slice =
      lit.text ++ rest := by
  have start : pre.length + lit.sign.length = (pre ++ lit.sign).length := List.length_append.symm
  rw [Tokenizer.slice, tokenizerAt, start, List.append_assoc (pre ++ lit.sign), List.drop_left]

/-- The tokenizer behind the number. -/
def afterNumber : Tokenizer :=
  (lit.tokenizerAt pre rest line lastLinePos current (pre.length + lit.sign.length)).accept
    (numberTag (lit.text ++ rest)) (pre.length + lit.sign.length) (numberSize (lit.text ++ rest))
    (numberSize (lit.text ++ rest))

theorem nextToken_tokenizerAt :
    (lit.tokenizerAt pre rest line lastLinePos current
      (pre.length + lit.sign.length)).nextToken =
        some (lit.afterNumber pre rest line lastLinePos current) := by
  obtain ⟨c, more, shape, digit⟩ := lit.text_digit
  have slice := lit.slice_tokenizerAt pre rest line lastLinePos current
  have first : (lit.tokenizerAt pre rest line lastLinePos current
      (pre.length + lit.sign.length)).slice = c :: (more ++ rest) := by
    rw [slice, shape]
    rfl
  rw [nextToken_number first digit, slice]
  rfl

/-- What is parsed from the first token of the literal on. -/
theorem acceptNumericalLiteral_eq {first : Tokenizer} (delimited : Delimited rest)
    (whole : numberSize (lit.text ++ rest) = lit.text.length)
    (read : (lit.tokenizerAt pre rest line lastLinePos current pre.length).nextToken = some first) :
    acceptNumericalLiteral first =
      if lit.base = .hexadecimal ∧ lit.negative = true then none
      else (lit.afterNumber pre rest line lastLinePos current).nextToken.map
        fun t => (some ⟨none, lit.plaintext⟩, t) := by
  have tag := (lit.hexPrefix_text delimited).1
  have text : (lit.afterNumber pre rest line lastLinePos current).currentText = lit.text := by
    change ((pre ++ lit.sign ++ lit.text ++ rest).drop (pre.length + lit.sign.length)).take
      (pre.length + lit.sign.length + numberSize (lit.text ++ rest) -
        (pre.length + lit.sign.length)) = lit.text
    rw [Nat.add_sub_cancel_left, whole, List.append_assoc (pre ++ lit.sign), ← List.length_append,
      List.drop_left, List.take_left]
  have current_tag : (lit.afterNumber pre rest line lastLinePos current).current.tag = lit.tag := tag
  cases negative : lit.negative with
  | false =>
      have noSign : lit.sign = [] := by
        rw [sign, negative]
        rfl
      have start := lit.nextToken_tokenizerAt pre rest line lastLinePos current
      rw [noSign] at start
      have same := Option.some.inj (read.symm.trans start)
      subst same
      rw [acceptNumericalLiteral, acceptNumericalType, current_tag, plaintext, noSign]
      cases base : lit.base with
      | decimal =>
          simp [IntegerText.tag, base, numericalType, acceptToken, current_tag, text]
      | hexadecimal =>
          simp [IntegerText.tag, base, numericalType, acceptToken, current_tag, text]
  | true =>
      have oneSign : lit.sign = ['-'] := by
        rw [sign, negative]
        rfl
      have slice : (lit.tokenizerAt pre rest line lastLinePos current pre.length).slice =
          '-' :: (lit.text ++ rest) := by
        rw [Tokenizer.slice, tokenizerAt, oneSign, List.append_assoc, List.append_assoc,
          List.drop_left]
        rfl
      have same : (lit.tokenizerAt pre rest line lastLinePos current pre.length).accept .minusTok
          pre.length 1 1 = first := Option.some.inj ((nextToken_minus slice).symm.trans read)
      subst same
      have next : ((lit.tokenizerAt pre rest line lastLinePos current pre.length).accept .minusTok
          pre.length 1 1).nextToken = some (lit.afterNumber pre rest line lastLinePos current) := by
        have start := lit.nextToken_tokenizerAt pre rest line lastLinePos
          ⟨.minusTok, pre.length, pre.length + 1⟩
        rw [oneSign] at start
        exact start
      have minus : ((lit.tokenizerAt pre rest line lastLinePos current pre.length).accept .minusTok
          pre.length 1 1).current.tag = .minusTok := rfl
      rw [acceptNumericalLiteral, acceptNumericalType, plaintext, oneSign]
      cases base : lit.base with
      | decimal =>
          simp [minus, next, IntegerText.tag, base, numericalType, acceptToken, current_tag, text]
      | hexadecimal =>
          simp [minus, next, IntegerText.tag, base, numericalType, acceptToken, current_tag]

/-- A literal that is read as a whole gives the canonical literal where it fits. -/
theorem inferred_iff (type : IntType) (parsed : ¬ (lit.base = .hexadecimal ∧ lit.negative = true)) :
    inferUntypedNumber lit.plaintext (some (.int type)) =
        .intLiteral (canonicalLiteral type lit.number) ↔
      (lit.base = .decimal → FitsParsed type.width lit.number) ∧
        (lit.base = .hexadecimal → 2 ^ type.width.bits ∣ lit.number) := by
  rw [inferUntypedNumber_iff]
  cases base : lit.base with
  | decimal =>
      rw [lit.strtoll_decimal base, clamp_exact]
      simp
  | hexadecimal =>
      have positive : lit.negative = false := by
        cases negative : lit.negative with
        | false => rfl
        | true => exact absurd ⟨base, negative⟩ parsed
      have zero : (strtoll lit.plaintext).1 = 0 := by
        rw [plaintext, sign, positive, text, base]
        exact strtoll_hexadecimal lit.digits
      rw [zero, IntType.pattern, TwosComplement.residue, Int.dvd_iff_emod_eq_zero]
      simp [eq_comm]

theorem kept_iff (type : IntType) (delimited : Delimited rest)
    (continues : ∀ t, (lit.tokenizerAt pre rest line lastLinePos current
      (pre.length + lit.sign.length)).nextToken = some t → t.nextToken ≠ none) :
    lit.Kept type pre rest line lastLinePos current ↔ lit.Fits type.width rest := by
  have start := lit.nextToken_tokenizerAt pre rest line lastLinePos current
  have tag := (lit.hexPrefix_text delimited).1
  have size := lit.numberSize_text delimited
  have token : (∃ t, (lit.tokenizerAt pre rest line lastLinePos current
      (pre.length + lit.sign.length)).nextToken = some t ∧
        t.current = ⟨lit.tag, pre.length + lit.sign.length,
          pre.length + lit.sign.length + lit.text.length⟩ ∧
        t.pos = pre.length + lit.sign.length + lit.text.length) ↔
      numberSize (lit.text ++ rest) = lit.text.length := by
    constructor
    · rintro ⟨t, read, -, pos⟩
      rw [start] at read
      cases read
      exact Nat.add_left_cancel pos
    · intro whole
      refine ⟨_, start, ?_, ?_⟩
      · rw [afterNumber, Tokenizer.accept, tag, whole]
      · rw [afterNumber, Tokenizer.accept, whole]
        rfl
  have fits : lit.Fits type.width rest ↔
      (lit.base = .hexadecimal → LooksDecimal lit.digits rest) ∧
        (¬ (lit.base = .hexadecimal ∧ lit.negative = true) →
          (lit.base = .decimal → FitsParsed type.width lit.number) ∧
            (lit.base = .hexadecimal → 2 ^ type.width.bits ∣ lit.number)) := by
    rw [Fits]
    cases lit.base with
    | decimal => simp
    | hexadecimal => cases lit.negative <;> simp
  rw [Kept, token, size, fits]
  apply and_congr_right
  intro looks
  have whole := size.mpr looks
  constructor
  · intro inferred parsed
    obtain ⟨c, more, shape, digit⟩ := lit.text_digit
    obtain ⟨first, read⟩ : ∃ first,
        (lit.tokenizerAt pre rest line lastLinePos current pre.length).nextToken = some first := by
      cases negative : lit.negative with
      | false =>
          have noSign : lit.sign.length = 0 := by
            rw [sign, negative]
            rfl
          rw [noSign] at start
          exact ⟨_, start⟩
      | true =>
          have slice : (lit.tokenizerAt pre rest line lastLinePos current pre.length).slice =
              '-' :: (lit.text ++ rest) := by
            rw [Tokenizer.slice, tokenizerAt, sign, negative, List.append_assoc, List.append_assoc,
              List.drop_left]
            rfl
          exact ⟨_, nextToken_minus slice⟩
    obtain ⟨last, next⟩ := Option.ne_none_iff_exists'.mp (continues _ start)
    have accepted := lit.acceptNumericalLiteral_eq pre rest line lastLinePos current delimited whole read
    rw [if_neg parsed, next, Option.map_some] at accepted
    have typed := inferred first _ last read accepted
    exact (lit.inferred_iff type parsed).mp (Option.some.inj typed)
  · intro kept first number last read accepted
    rw [lit.acceptNumericalLiteral_eq pre rest line lastLinePos current delimited whole read] at accepted
    split at accepted
    · cases accepted
    · rename_i parsed
      obtain ⟨t, -, same⟩ := Option.map_eq_some_iff.mp accepted
      cases same
      exact congrArg some ((lit.inferred_iff type parsed).mpr (kept parsed))

end IntegerText

/-- A literal that what follows does not continue keeps its value, modulo the width of the type, if
and only if it is decimal and fits, or hexadecimal and looks decimal and is zero in the type. -/
theorem integerLiterals_exact (lit : IntegerText) (type : IntType) (pre rest : List Char)
    (line lastLinePos : Nat) (current : Token) (delimited : Delimited rest)
    (continues : ∀ t, (lit.tokenizerAt pre rest line lastLinePos current
      (pre.length + lit.sign.length)).nextToken = some t → t.nextToken ≠ none) :
    lit.Kept type pre rest line lastLinePos current ↔ lit.Fits type.width rest :=
  lit.kept_iff pre rest line lastLinePos current type delimited continues

def literal255 : IntegerText := ⟨false, .decimal, ['2', '5', '5'], by decide,
  List.all_eq_true.mp (by decide)⟩

theorem integerLiterals_255 :
    literal255.Kept ⟨.intTy8, false⟩ [] [] 1 0 ⟨.eofTok, 0, 0⟩ := by
  apply (integerLiterals_exact literal255 ⟨.intTy8, false⟩ [] [] 1 0 ⟨.eofTok, 0, 0⟩ _ _).mpr
  · exact ⟨by decide, by decide⟩
  · intro c first
    exact nomatch first
  · intro t read ended
    have next : (literal255.tokenizerAt [] [] 1 0 ⟨.eofTok, 0, 0⟩ 0).nextToken.bind
        Tokenizer.nextToken ≠ none := by
      decide +kernel
    apply next
    have start : (literal255.tokenizerAt [] [] 1 0 ⟨.eofTok, 0, 0⟩ 0).nextToken = some t := read
    rw [start]
    exact ended

def literal0xFF : IntegerText := ⟨false, .hexadecimal, ['F', 'F'], by decide,
  List.all_eq_true.mp (by decide)⟩

/-- The token of `0xFF` is its prefix. -/
theorem integerLiterals_0xFF :
    ¬ literal0xFF.Kept ⟨.intTy8, false⟩ [] [] 1 0 ⟨.eofTok, 0, 0⟩ := by
  rintro ⟨⟨t, read, token, -⟩, -⟩
  have short : (literal0xFF.tokenizerAt [] [] 1 0 ⟨.eofTok, 0, 0⟩ 0).nextToken.map
      (fun next => next.current.end_) = some 2 := by
    decide +kernel
  have start : (literal0xFF.tokenizerAt [] [] 1 0 ⟨.eofTok, 0, 0⟩ 0).nextToken = some t := read
  rw [start, Option.map_some, token] at short
  exact absurd short (by decide)

end Shady.Slim
