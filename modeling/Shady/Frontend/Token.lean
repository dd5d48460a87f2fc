import Mathlib.Data.List.Basic
import Mathlib.Tactic

/-!
# Tokens

The tokenizer of `src/frontend/slim/token.c`. A source ends with a zero, which is what is read
at its end; no zero occurs in it.
-/

set_option autoImplicit false

namespace Shady.Slim

/-- `TokenTag` -/
inductive TokenTag
  | eofTok | identifierTok | decLitTok | hexLitTok | stringLitTok | uniformTok | varyingTok
  | structTok | unionTok | arrayTok | privateTok | sharedTok | subgroupTok | globalTok | inputTok
  | outputTok | externTok | genericTok | logicalTok | varTok | valTok | ptrTok | refTok | typeTok
  | fnTok | contTok | lambdaTok | i8Tok | i16Tok | i32Tok | i64Tok | u8Tok | u16Tok | u32Tok
  | u64Tok | f16Tok | f32Tok | f64Tok | maskTTok | compositeTok | packTok | constTok | boolTok
  | trueTok | falseTok | ifTok | elseTok | controlTok | mergeSelectionTok | loopTok | continueTok
  | breakTok | jumpTok | branchTok | switchTok | caseTok | defaultTok | joinTok | callTok
  | tailcallTok | returnTok | unreachableTok | infixRshiftLogicalTok | infixRshiftArithmTok
  | infixLshiftTok | infixEqTok | infixNeqTok | infixGeqTok | infixLeqTok | infixGtTok
  | infixLsTok | infixAndTok | infixXorTok | infixOrTok | unaryExclTok | plusTok | minusTok
  | starTok | fslashTok | percentTok | lparTok | rparTok | lbracketTok | rbracketTok
  | lsbracketTok | rsbracketTok | atTok | poundTok | dotTok | semiTok | colonTok | commaTok
  | equalTok
  deriving DecidableEq

/-- `token_strings`, without the tags that have none. -/
def tokenStrings : List (TokenTag × String) :=
  [(.uniformTok, "uniform"), (.varyingTok, "varying"), (.structTok, "struct"),
    (.unionTok, "union"), (.arrayTok, "array"), (.privateTok, "private"), (.sharedTok, "shared"),
    (.subgroupTok, "subgroup"), (.globalTok, "global"), (.inputTok, "input"),
    (.outputTok, "output"), (.externTok, "extern"), (.genericTok, "generic"),
    (.logicalTok, "logical"), (.varTok, "var"), (.valTok, "val"), (.ptrTok, "ptr"),
    (.refTok, "ref"), (.typeTok, "type"), (.fnTok, "fn"), (.contTok, "cont"),
    (.lambdaTok, "lambda"), (.i8Tok, "i8"), (.i16Tok, "i16"), (.i32Tok, "i32"), (.i64Tok, "i64"),
    (.u8Tok, "u8"), (.u16Tok, "u16"), (.u32Tok, "u32"), (.u64Tok, "u64"), (.f16Tok, "f16"),
    (.f32Tok, "f32"), (.f64Tok, "f64"), (.maskTTok, "mask_t"), (.compositeTok, "composite"),
    (.packTok, "pack"), (.constTok, "const"), (.boolTok, "bool"), (.trueTok, "true"),
    (.falseTok, "false"), (.ifTok, "if"), (.elseTok, "else"), (.controlTok, "control"),
    (.mergeSelectionTok, "merge_selection"), (.loopTok, "loop"), (.continueTok, "continue"),
    (.breakTok, "break"), (.jumpTok, "jump"), (.branchTok, "branch"), (.switchTok, "switch"),
    (.caseTok, "case"), (.defaultTok, "default"), (.joinTok, "join"), (.callTok, "call"),
    (.tailcallTok, "tailcall"), (.returnTok, "return"), (.unreachableTok, "unreachable"),
    (.infixRshiftLogicalTok, ">>>"), (.infixRshiftArithmTok, ">>"), (.infixLshiftTok, "<<"),
    (.infixEqTok, "=="), (.infixNeqTok, "!="), (.infixGeqTok, ">="), (.infixLeqTok, "<="),
    (.infixGtTok, ">"), (.infixLsTok, "<"), (.infixAndTok, "&"), (.infixXorTok, "^"),
    (.infixOrTok, "|"), (.unaryExclTok, "!"), (.plusTok, "+"), (.minusTok, "-"), (.starTok, "*"),
    (.fslashTok, "/"), (.percentTok, "%"), (.lparTok, "("), (.rparTok, ")"), (.lbracketTok, "\x7b"),
    (.rbracketTok, "\x7d"), (.lsbracketTok, "["), (.rsbracketTok, "]"), (.atTok, "@"),
    (.poundTok, "#"), (.dotTok, "."), (.semiTok, ";"), (.colonTok, ":"), (.commaTok, ","),
    (.equalTok, "=")]

structure Token where
  tag : TokenTag
  start : Nat
  end_ : Nat
  deriving DecidableEq

structure Tokenizer where
  source : List Char
  pos : Nat
  line : Nat
  lastLinePos : Nat
  current : Token

def isAlpha (c : Char) : Bool := ('A' ≤ c && c ≤ 'Z') || ('a' ≤ c && c ≤ 'z')

def isDigit (c : Char) : Bool := '0' ≤ c && c ≤ '9'

def isWhitespace (c : Char) : Bool := c ∈ [' ', '\t', '\r']

def canStartIdentifier (c : Char) : Bool := isAlpha c || c == '_'

def canMakeUpIdentifier (c : Char) : Bool := canStartIdentifier c || isDigit c

/-- The character at a place of a slice. -/
def charAt (slice : List Char) (i : Nat) : Char := slice.getD i '\x00'

/-- `while (in_bounds(tokenizer, token_size) && p(slice[token_size])) token_size++;` -/
def scan (p : Char → Bool) (slice : List Char) (tokenSize : Nat) : Nat :=
  tokenSize + ((slice.drop tokenSize).takeWhile p).length

namespace Tokenizer

def slice (t : Tokenizer) : List Char := t.source.drop t.pos

/-- Where the inner loop of a block comment ends. -/
def endOfComment (source : List Char) : Nat → Nat → Nat
  | 0, pos => pos
  | fuel + 1, pos =>
      if pos < source.length then
        if charAt source pos = '/' ∧ charAt source (pos - 1) = '*' then pos + 1
        else endOfComment source fuel (pos + 1)
      else pos

/-- The loop of `eat_whitespace_and_comments`; each turn but the last eats something. -/
def eatFrom : Nat → Tokenizer → Tokenizer
  | 0, t => t
  | fuel + 1, t =>
      if t.pos < t.source.length then
        let c := charAt t.source t.pos
        if c = '\n' then
          eatFrom fuel { t with line := t.line + 1, pos := t.pos + 1, lastLinePos := t.pos + 1 }
        else if isWhitespace c then eatFrom fuel { t with pos := t.pos + 1 }
        else if t.pos + 2 ≤ t.source.length ∧ c = '/' ∧ charAt t.source (t.pos + 1) = '/' then
          eatFrom fuel { t with pos := scan (· ≠ '\n') t.source t.pos }
        else if t.pos + 4 ≤ t.source.length ∧ c = '/' ∧ charAt t.source (t.pos + 1) = '*' then
          eatFrom fuel { t with pos := endOfComment t.source t.source.length (t.pos + 3) }
        else t
      else t

def eatWhitespaceAndComments (t : Tokenizer) : Tokenizer := eatFrom t.source.length t

end Tokenizer

/-! ## One token -/

/-- The size of a number, digits with a prefix, a point, an exponent and a suffix. -/
def numberSize (slice : List Char) : Nat :=
  let tokenSize := if charAt slice 0 = '0' ∧ charAt slice 1 = 'x' then 2 else 0
  let tokenSize := scan isDigit slice tokenSize
  let tokenSize := if charAt slice tokenSize = '.' then tokenSize + 1 else tokenSize
  let tokenSize := scan isDigit slice tokenSize
  let tokenSize :=
    if charAt slice tokenSize = 'e' then
      let tokenSize := tokenSize + 1
      let tokenSize :=
        if charAt slice tokenSize = '-' ∨ charAt slice tokenSize = '+' then tokenSize + 1
        else tokenSize
      scan isDigit slice tokenSize
    else tokenSize
  if charAt slice tokenSize = 'f' then tokenSize + 1 else tokenSize

def numberTag (slice : List Char) : TokenTag :=
  if charAt slice 0 = '0' ∧ charAt slice 1 = 'x' then .hexLitTok else .decLitTok

/-- The number of characters in front of the second quote, where the zero at the end counts. -/
def stringSize (slice : List Char) : Nat :=
  scan (· ≠ '"') ((slice ++ ['\x00']).drop 1) 0

/-- The first of the tokens with a fixed text that comes next; an identifier has to be as long. -/
def fixedToken (slice : List Char) (identifierSize : Option Nat) : Option (TokenTag × Nat) :=
  (tokenStrings.find? fun (_, text) =>
    text.toList.isPrefixOf slice && (identifierSize.all fun size => text.length == size)).map
      fun (tag, text) => (tag, text.length)

namespace Tokenizer

/-- A token that begins at the position, or behind the quote there, with the characters read. -/
def accept (t : Tokenizer) (tag : TokenTag) (start size read : Nat) : Tokenizer :=
  { t with pos := t.pos + read, current := ⟨tag, start, start + size⟩ }

/-- `shd_next_token`, `none` where the program ends with an error. -/
def nextToken (t : Tokenizer) : Option Tokenizer :=
  let t := t.eatWhitespaceAndComments
  if t.pos = t.source.length then some { t with current := ⟨.eofTok, 0, 0⟩ }
  else
    let slice := t.slice
    let c := charAt slice 0
    if canStartIdentifier c then
      let size := scan canMakeUpIdentifier slice 0
      match fixedToken slice (some size) with
      | some (tag, size) => some (t.accept tag t.pos size size)
      | none => some (t.accept .identifierTok t.pos size size)
    else if isDigit c then
      let size := numberSize slice
      some (t.accept (numberTag slice) t.pos size size)
    else
      let size := stringSize slice
      if c = '"' ∧ charAt slice (size + 1) = '"' then
        some (t.accept .stringLitTok (t.pos + 1) size (size + 2))
      else
        match fixedToken slice none with
        | some (tag, size) => some (t.accept tag t.pos size size)
        | none => none

/-- `shd_new_tokenizer` -/
def new (source : List Char) : Option Tokenizer := nextToken ⟨source, 0, 1, 0, ⟨.eofTok, 0, 0⟩⟩

end Tokenizer

/-! ## In front of a token -/

theorem charAt_append (u v : List Char) (c : Char) : charAt (u ++ c :: v) u.length = c := by
  simp [charAt]

/-- Nothing is eaten in front of a token that starts with no blank and no slash. -/
theorem eatWhitespaceAndComments_stays {t : Tokenizer} {c : Char} {more : List Char}
    (next : t.slice = c :: more) (visible : c ≠ '\n' ∧ isWhitespace c = false ∧ c ≠ '/') :
    t.eatWhitespaceAndComments = t := by
  have here : charAt t.source t.pos = c := by
    have first : t.source[t.pos]? = some c := by
      rw [← List.head?_drop]
      exact congrArg List.head? next
    rw [charAt, List.getD_eq_getElem?_getD, first, Option.getD_some]
  rw [Tokenizer.eatWhitespaceAndComments]
  cases t.source.length with
  | zero => rfl
  | succ fuel =>
      rw [Tokenizer.eatFrom]
      simp [here, visible.1, visible.2.1, visible.2.2]

theorem pos_lt_of_slice {t : Tokenizer} {c : Char} {more : List Char} (next : t.slice = c :: more) :
    t.pos < t.source.length := by
  by_contra ended
  rw [Tokenizer.slice, List.drop_eq_nil_of_le (Nat.le_of_not_lt ended)] at next
  exact nomatch next

end Shady.Slim
