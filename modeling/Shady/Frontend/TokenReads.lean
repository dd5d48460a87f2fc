import Shady.Frontend.Token
import Mathlib.Data.List.TakeWhile

/-!
# The reads of the tokenizer

The functions of `token.c` again, with every access to the source in its order. An access behind the
zero that ends the source is a fault.
-/

set_option autoImplicit false

namespace Shady.Slim.Checked

inductive Fault
  /-- A character behind the zero at the end of the source is read. -/
  | pastTerminator
  /-- `exit(-2)` -/
  | untokenizable
  deriving DecidableEq

/-- `source[i]` -/
def read (source : List Char) (i : Nat) : Except Fault Char :=
  if i ≤ source.length then .ok (charAt source i) else .error .pastTerminator

/-! ## Whitespace and comments -/

/-- There is room for a comment, which opens with a slash and this character. -/
def opens (t : Tokenizer) (room : Nat) (second : Char) : Except Fault Bool :=
  if t.pos + room ≤ t.source.length then do
    if (← read t.source t.pos) = '/' then return (← read t.source (t.pos + 1)) = second
    else return false
  else return false

/-- The inner loop of a line comment. -/
def endOfLine (source : List Char) : Nat → Nat → Except Fault Nat
  | 0, pos => return pos
  | fuel + 1, pos =>
      if pos < source.length then do
        if (← read source pos) = '\n' then return pos else endOfLine source fuel (pos + 1)
      else return pos

/-- Both characters that close a block comment, the second one first. -/
def closes (source : List Char) (pos : Nat) : Except Fault Bool := do
  if (← read source pos) = '/' then return (← read source (pos - 1)) = '*' else return false

/-- The inner loop of a block comment. -/
def endOfComment (source : List Char) : Nat → Nat → Except Fault Nat
  | 0, pos => return pos
  | fuel + 1, pos =>
      if pos < source.length then do
        if ← closes source pos then return pos + 1 else endOfComment source fuel (pos + 1)
      else return pos

/-- A turn of the loop of `eat_whitespace_and_comments`, or none where it is left. -/
def eatStep (t : Tokenizer) : Except Fault (Option Tokenizer) :=
  if t.pos < t.source.length then do
    let c ← read t.source t.pos
    if c = '\n' then
      return some { t with line := t.line + 1, pos := t.pos + 1, lastLinePos := t.pos + 1 }
    else if isWhitespace c then return some { t with pos := t.pos + 1 }
    else if ← opens t 2 '/' then
      return some { t with pos := ← endOfLine t.source t.source.length t.pos }
    else if ← opens t 4 '*' then
      return some { t with pos := ← endOfComment t.source t.source.length (t.pos + 3) }
    else return none
  else return none

def eatFrom : Nat → Tokenizer → Except Fault Tokenizer
  | 0, t => return t
  | fuel + 1, t => do
      match ← eatStep t with
      | some t => eatFrom fuel t
      | none => return t

/-- `eat_whitespace_and_comments` -/
def eatWhitespaceAndComments (t : Tokenizer) : Except Fault Tokenizer := eatFrom t.source.length t

/-! ## One token -/

/-- `while (in_bounds(tokenizer, token_size) && p(slice[token_size])) token_size++;` -/
def scan (p : Char → Bool) (source : List Char) (pos : Nat) : Nat → Nat → Except Fault Nat
  | 0, tokenSize => return tokenSize
  | fuel + 1, tokenSize =>
      if pos + tokenSize ≤ source.length then do
        if p (← read source (pos + tokenSize)) then scan p source pos fuel (tokenSize + 1)
        else return tokenSize
      else return tokenSize

/-- `if (slice[token_size] == c) token_size++;`, for one of some characters. -/
def accept (cs : List Char) (source : List Char) (pos tokenSize : Nat) : Except Fault Nat := do
  if (← read source (pos + tokenSize)) ∈ cs then return tokenSize + 1 else return tokenSize

def isHex (source : List Char) (pos : Nat) : Except Fault Bool := do
  if (← read source pos) = '0' then return (← read source (pos + 1)) = 'x' else return false

def exponentSize (source : List Char) (pos tokenSize : Nat) : Except Fault Nat := do
  if (← read source (pos + tokenSize)) = 'e' then
    scan isDigit source pos (source.length + 1) (← accept ['-', '+'] source pos (tokenSize + 1))
  else return tokenSize

/-- A number, with its tag and size. -/
def number (source : List Char) (pos : Nat) : Except Fault (TokenTag × Nat) := do
  let hex ← isHex source pos
  let tokenSize ← scan isDigit source pos (source.length + 1) (if hex then 2 else 0)
  let tokenSize ← accept ['.'] source pos tokenSize
  let tokenSize ← scan isDigit source pos (source.length + 1) tokenSize
  let tokenSize ← exponentSize source pos tokenSize
  let tokenSize ← accept ['f'] source pos tokenSize
  return (if hex then .hexLitTok else .decLitTok, tokenSize)

/-- `strncmp` of a text with what is at the position, which stops at the first difference. -/
def strncmp (source : List Char) : List Char → Nat → Except Fault Bool
  | [], _ => return true
  | c :: text, pos => do
      if (← read source pos) = c then strncmp source text (pos + 1) else return false

/-- The loop over the tokens with a fixed text. -/
def fixedToken (source : List Char) (pos : Nat) (identifierSize : Option Nat) :
    List (TokenTag × String) → Except Fault (Option (TokenTag × Nat))
  | [] => return none
  | (tag, text) :: rest =>
      if pos + text.length ≤ source.length then do
        if ← strncmp source text.toList pos then
          if identifierSize.all fun size => text.length == size then return some (tag, text.length)
          else fixedToken source pos identifierSize rest
        else fixedToken source pos identifierSize rest
      else fixedToken source pos identifierSize rest

/-- A token with a fixed text, or the end of the program. -/
def fixedOrExit (t : Tokenizer) : Except Fault Tokenizer := do
  match ← fixedToken t.source t.pos none tokenStrings with
  | some (tag, size) => return t.accept tag t.pos size size
  | none => throw .untokenizable

/-- `shd_next_token` -/
def nextToken (t : Tokenizer) : Except Fault Tokenizer := do
  let t ← eatWhitespaceAndComments t
  if t.pos = t.source.length then return { t with current := ⟨.eofTok, 0, 0⟩ }
  else
    let c ← read t.source t.pos
    if canStartIdentifier c then
      let size ← scan canMakeUpIdentifier t.source t.pos (t.source.length + 1) 0
      match ← fixedToken t.source t.pos (some size) tokenStrings with
      | some (tag, size) => return t.accept tag t.pos size size
      | none => return t.accept .identifierTok t.pos size size
    else if isDigit c then
      let (tag, size) ← number t.source t.pos
      return t.accept tag t.pos size size
    else if c = '"' then
      let size ← scan (· ≠ '"') t.source (t.pos + 1) (t.source.length + 1) 0
      if (← read t.source (t.pos + 1 + size)) = '"' then
        return t.accept .stringLitTok (t.pos + 1) size (size + 2)
      else fixedOrExit t
    else fixedOrExit t

/-! ## Where nothing is read past the end -/

theorem read_eq {source : List Char} {i : Nat} (inside : i ≤ source.length) :
    read source i = .ok (charAt source i) := if_pos inside

theorem read_past {source : List Char} {i : Nat} (outside : source.length < i) :
    read source i = .error .pastTerminator := if_neg (Nat.not_le.mpr outside)

theorem charAt_drop (source : List Char) (pos i : Nat) :
    charAt (source.drop pos) i = charAt source (pos + i) := by
  simp [charAt, List.getD_eq_getElem?_getD]

theorem opens_eq (t : Tokenizer) (room : Nat) (second : Char) (two : 2 ≤ room) :
    opens t room second = .ok (decide (t.pos + room ≤ t.source.length ∧
      charAt t.source t.pos = '/' ∧ charAt t.source (t.pos + 1) = second)) := by
  rw [opens]
  by_cases enough : t.pos + room ≤ t.source.length
  · rw [if_pos enough, read_eq (by omega), read_eq (by omega)]
    by_cases slash : charAt t.source t.pos = '/'
    · simp [enough, slash, bind, Except.bind, pure, Except.pure]
    · simp [slash, bind, Except.bind, pure, Except.pure]
  · simp [enough, pure, Except.pure]

theorem scan_succ {p : Char → Bool} {slice : List Char} {size : Nat} {c : Char}
    (here : slice[size]? = some c) (more : p c = true) :
    Slim.scan p slice size = Slim.scan p slice (size + 1) := by
  obtain ⟨inside, same⟩ := List.getElem?_eq_some_iff.mp here
  rw [Slim.scan, Slim.scan, List.drop_eq_getElem_cons inside, same,
    List.takeWhile_cons_of_pos more, List.length_cons]
  omega

theorem scan_stop {p : Char → Bool} {slice : List Char} {size : Nat}
    (stop : ∀ c, slice[size]? = some c → p c = false) : Slim.scan p slice size = size := by
  have none : (slice.drop size).takeWhile p = [] := by
    cases rest : slice.drop size with
    | nil => rfl
    | cons c more =>
        have here : slice[size]? = some c := by
          rw [← List.head?_drop, rest]
          rfl
        rw [List.takeWhile_cons_of_neg (by rw [stop c here]; exact Bool.false_ne_true)]
  rw [Slim.scan, none, List.length_nil, Nat.add_zero]

theorem getElem?_charAt {source : List Char} {i : Nat} (inside : i < source.length) :
    source[i]? = some (charAt source i) := by
  rw [charAt, List.getD_eq_getElem?_getD, List.getElem?_eq_getElem inside, Option.getD_some]

theorem endOfLine_eq (source : List Char) (fuel : Nat) : ∀ pos, source.length - pos ≤ fuel →
    endOfLine source fuel pos = .ok (Slim.scan (· ≠ '\n') source pos) := by
  induction fuel with
  | zero =>
      intro pos enough
      rw [scan_stop]
      · rfl
      · intro c here
        have inside := (List.getElem?_eq_some_iff.mp here).1
        omega
  | succ fuel ih =>
      intro pos enough
      rw [endOfLine]
      by_cases inside : pos < source.length
      · have here := getElem?_charAt inside
        rw [if_pos inside, read_eq (Nat.le_of_lt inside)]
        change (if charAt source pos = '\n' then _ else _) = _
        by_cases newline : charAt source pos = '\n'
        · rw [if_pos newline, scan_stop]
          · rfl
          · intro c found
            rw [here] at found
            simp [← Option.some.inj found, newline]
        · rw [if_neg newline, ih (pos + 1) (by omega), scan_succ here (by simp [newline])]
      · rw [if_neg inside, scan_stop]
        · rfl
        · intro c found
          exact absurd (List.getElem?_eq_some_iff.mp found).1 inside

theorem endOfComment_eq (source : List Char) (fuel : Nat) : ∀ pos,
    endOfComment source fuel pos = .ok (Tokenizer.endOfComment source fuel pos) := by
  induction fuel with
  | zero => exact fun pos => rfl
  | succ fuel ih =>
      intro pos
      rw [endOfComment, Tokenizer.endOfComment]
      by_cases inside : pos < source.length
      · rw [if_pos inside, if_pos inside, closes, read_eq (Nat.le_of_lt inside),
          read_eq (by omega : pos - 1 ≤ source.length), ih]
        by_cases slash : charAt source pos = '/'
        · by_cases star : charAt source (pos - 1) = '*'
          · simp [slash, star, bind, Except.bind, pure, Except.pure]
          · simp [slash, star, bind, Except.bind, pure, Except.pure]
        · simp [slash, bind, Except.bind, pure, Except.pure]
      · rw [if_neg inside, if_neg inside]
        rfl

theorem eatFrom_eq (fuel : Nat) : ∀ t : Tokenizer,
    eatFrom fuel t = .ok (Tokenizer.eatFrom fuel t) := by
  induction fuel with
  | zero => exact fun t => rfl
  | succ fuel ih =>
      intro t
      rw [eatFrom, eatStep, Tokenizer.eatFrom]
      by_cases inside : t.pos < t.source.length
      · rw [if_pos inside, if_pos inside, read_eq (Nat.le_of_lt inside),
          opens_eq t 2 '/' (by decide), opens_eq t 4 '*' (by decide),
          endOfLine_eq _ _ _ (by omega), endOfComment_eq]
        by_cases newline : charAt t.source t.pos = '\n'
        · simp [newline, bind, Except.bind, pure, Except.pure, ih]
        · by_cases blank : isWhitespace (charAt t.source t.pos)
          · simp [newline, blank, bind, Except.bind, pure, Except.pure, ih]
          · by_cases line : t.pos + 2 ≤ t.source.length ∧ charAt t.source t.pos = '/' ∧
                charAt t.source (t.pos + 1) = '/'
            · simp [line, isWhitespace, bind, Except.bind, pure, Except.pure, ih]
            · by_cases block : t.pos + 4 ≤ t.source.length ∧ charAt t.source t.pos = '/' ∧
                  charAt t.source (t.pos + 1) = '*'
              · simp [isWhitespace, block, bind, Except.bind, pure, Except.pure, ih]
              · simp [newline, blank, line, block, bind, Except.bind, pure, Except.pure]
      · simp [inside, bind, Except.bind, pure, Except.pure]

/-! ## Tokens -/

theorem getElem?_terminated {source : List Char} {i : Nat} (inside : i ≤ source.length) :
    (source ++ ['\x00'])[i]? = some (charAt source i) := by
  cases Nat.lt_or_eq_of_le inside with
  | inl before => rw [List.getElem?_append_left before, getElem?_charAt before]
  | inr last =>
      rw [last, List.getElem?_append_right (Nat.le_refl _), Nat.sub_self, charAt,
        List.getD_eq_getElem?_getD, List.getElem?_eq_none (Nat.le_refl _)]
      rfl

/-- The loop sees the zero at the end as a character of its own. -/
theorem scan_eq (p : Char → Bool) (source : List Char) (pos fuel : Nat) : ∀ size,
    source.length + 1 - (pos + size) ≤ fuel →
    scan p source pos fuel size = .ok (Slim.scan p ((source ++ ['\x00']).drop pos) size) := by
  have ended : ∀ size, source.length < pos + size →
      Slim.scan p ((source ++ ['\x00']).drop pos) size = size := by
    intro size outside
    refine scan_stop fun c here => ?_
    have inside := (List.getElem?_eq_some_iff.mp here).1
    rw [List.length_drop, List.length_append, List.length_singleton] at inside
    omega
  induction fuel with
  | zero =>
      intro size enough
      rw [ended size (by omega)]
      rfl
  | succ fuel ih =>
      intro size enough
      rw [scan]
      by_cases inside : pos + size ≤ source.length
      · have here : ((source ++ ['\x00']).drop pos)[size]? = some (charAt source (pos + size)) := by
          rw [List.getElem?_drop, getElem?_terminated inside]
        rw [if_pos inside, read_eq inside]
        change (if p (charAt source (pos + size)) then _ else _) = _
        by_cases more : p (charAt source (pos + size))
        · rw [if_pos more, ih (size + 1) (by omega), scan_succ here more]
        · rw [if_neg more, scan_stop]
          · rfl
          · intro c found
            rw [here] at found
            rw [← Option.some.inj found]
            exact Bool.eq_false_iff.mpr more
      · rw [if_neg inside, ended size (by omega)]
        rfl

/-- A loop that stops at the zero does not see it. -/
theorem scan_slice_eq {p : Char → Bool} (stops : p '\x00' = false) {source : List Char}
    {pos fuel size : Nat} (started : pos ≤ source.length)
    (enough : source.length + 1 - (pos + size) ≤ fuel) :
    scan p source pos fuel size = .ok (Slim.scan p (source.drop pos) size) := by
  rw [scan_eq p source pos fuel size enough, List.drop_append_of_le_length started, Slim.scan, Slim.scan]
  by_cases inside : size ≤ (source.drop pos).length
  · rw [List.drop_append_of_le_length inside, List.takeWhile_append]
    split_ifs with whole
    · rw [List.takeWhile_cons_of_neg (by rw [stops]; exact Bool.false_ne_true), List.append_nil, whole]
    · rfl
  · rw [List.drop_eq_nil_of_le (by rw [List.length_append, List.length_singleton]; omega),
      List.drop_eq_nil_of_le (by omega)]

theorem scan_le {p : Char → Bool} {slice : List Char} {size : Nat} (inside : size ≤ slice.length) :
    Slim.scan p slice size ≤ slice.length := by
  have rest : ((slice.drop size).takeWhile p).length ≤ (slice.drop size).length :=
    (List.takeWhile_prefix p).length_le
  rw [List.length_drop] at rest
  rw [Slim.scan]
  omega

theorem lt_of_charAt {slice : List Char} {i : Nat} (visible : charAt slice i ≠ '\x00') :
    i < slice.length := by
  by_contra outside
  rw [charAt, List.getD_eq_getElem?_getD, List.getElem?_eq_none (Nat.not_lt.mp outside)] at visible
  exact visible rfl

theorem accept_eq (cs : List Char) {source : List Char} {pos size : Nat}
    (started : pos ≤ source.length) (inside : size ≤ (source.drop pos).length) :
    accept cs source pos size =
      .ok (if charAt (source.drop pos) size ∈ cs then size + 1 else size) := by
  rw [List.length_drop] at inside
  rw [accept, read_eq (by omega), charAt_drop]
  change (if charAt source (pos + size) ∈ cs then _ else _) = _
  split_ifs <;> rfl

theorem accept_le (cs : List Char) (visible : '\x00' ∉ cs) {slice : List Char} {size : Nat}
    (inside : size ≤ slice.length) :
    (if charAt slice size ∈ cs then size + 1 else size) ≤ slice.length := by
  split_ifs with found
  · exact lt_of_charAt fun zero => visible (zero ▸ found)
  · exact inside

theorem isHex_eq {source : List Char} {pos : Nat} (inside : pos < source.length) :
    isHex source pos = .ok (decide (charAt (source.drop pos) 0 = '0' ∧
      charAt (source.drop pos) 1 = 'x')) := by
  rw [isHex, read_eq (Nat.le_of_lt inside), read_eq inside, charAt_drop, charAt_drop, Nat.add_zero]
  by_cases zero : charAt source pos = '0'
  · simp [zero, bind, Except.bind, pure, Except.pure]
  · simp [zero, bind, Except.bind, pure, Except.pure]

theorem exponentSize_eq {source : List Char} {pos size : Nat} (started : pos ≤ source.length)
    (inside : size ≤ (source.drop pos).length) :
    exponentSize source pos size = .ok (
      if charAt (source.drop pos) size = 'e' then
        Slim.scan isDigit (source.drop pos)
          (if charAt (source.drop pos) (size + 1) ∈ ['-', '+'] then size + 1 + 1 else size + 1)
      else size) := by
  have reached := inside
  rw [List.length_drop] at reached
  rw [exponentSize, read_eq (by omega), ← charAt_drop]
  by_cases exponent : charAt (source.drop pos) size = 'e'
  · have more := lt_of_charAt (by rw [exponent]; decide : charAt (source.drop pos) size ≠ '\x00')
    have sign := accept_eq ['-', '+'] started more
    rw [if_pos exponent]
    change (if charAt (source.drop pos) size = 'e' then _ else _) = _
    rw [if_pos exponent, sign]
    exact scan_slice_eq (by decide) (by omega) (by omega)
  · rw [if_neg exponent]
    change (if charAt (source.drop pos) size = 'e' then _ else _) = _
    rw [if_neg exponent]
    rfl

theorem exponentSize_le {slice : List Char} {size : Nat} (inside : size ≤ slice.length) :
    (if charAt slice size = 'e' then
        Slim.scan isDigit slice
          (if charAt slice (size + 1) ∈ ['-', '+'] then size + 1 + 1 else size + 1)
      else size) ≤ slice.length := by
  split_ifs with exponent
  · exact scan_le (lt_of_charAt (by rename_i sign; exact fun zero => absurd (zero ▸ sign) (by decide)))
  · exact scan_le (lt_of_charAt (by rw [exponent]; decide))
  · exact inside

theorem hexSize_le (slice : List Char) :
    (if charAt slice 0 = '0' ∧ charAt slice 1 = 'x' then 2 else 0) ≤ slice.length := by
  split_ifs with hex
  · exact lt_of_charAt (by rw [hex.2]; decide)
  · exact Nat.zero_le _

/-- No part of a number is behind the zero. -/
theorem number_eq {source : List Char} {pos : Nat} (inside : pos < source.length) :
    number source pos = .ok (numberTag (source.drop pos), numberSize (source.drop pos)) := by
  have length : (source.drop pos).length = source.length - pos := List.length_drop
  have digits : ∀ size, scan isDigit source pos (source.length + 1) size =
      .ok (Slim.scan isDigit (source.drop pos) size) :=
    fun size => scan_slice_eq (by decide) (Nat.le_of_lt inside) (by omega)
  have whole_le := scan_le (p := isDigit) (hexSize_le (source.drop pos))
  have point_le := accept_le ['.'] (by decide) whole_le
  have fraction_le := scan_le (p := isDigit) point_le
  have exponent_le := exponentSize_le fraction_le
  have started := Nat.le_of_lt inside
  simp only [number, isHex_eq inside, digits, bind, Except.bind, decide_eq_true_eq,
    accept_eq _ started whole_le, exponentSize_eq started fraction_le,
    accept_eq _ started exponent_le, pure, Except.pure]
  simp only [numberTag, numberSize, List.mem_cons, List.not_mem_nil, or_false]

theorem numberSize_le (slice : List Char) : numberSize slice ≤ slice.length := by
  have whole_le := scan_le (p := isDigit) (hexSize_le slice)
  have fraction_le := scan_le (p := isDigit) (accept_le ['.'] (by decide) whole_le)
  have size_le := accept_le ['f'] (by decide) (exponentSize_le fraction_le)
  simp only [List.mem_cons, List.not_mem_nil, or_false] at size_le
  exact size_le

/-- A number has at least the digit that it starts with. -/
theorem numberSize_pos {slice : List Char} (digit : isDigit (charAt slice 0)) :
    0 < numberSize slice := by
  have grows : ∀ (p : Char → Bool) (size : Nat), size ≤ Slim.scan p slice size :=
    fun p size => Nat.le_add_right _ _
  have first : 0 < Slim.scan isDigit slice
      (if charAt slice 0 = '0' ∧ charAt slice 1 = 'x' then 2 else 0) := by
    split_ifs with hex
    · exact Nat.lt_of_lt_of_le (by decide) (grows isDigit 2)
    · have inside : 0 < slice.length := lt_of_charAt fun zero => by
        rw [zero] at digit
        exact absurd digit (by decide)
      rw [scan_succ (getElem?_charAt inside) digit]
      exact grows isDigit 1
  have accepts : ∀ (c : Char) (size : Nat),
      size ≤ if charAt slice size = c then size + 1 else size := by
    intro c size
    split_ifs
    · exact Nat.le_succ size
    · exact Nat.le_refl size
  have exponent : ∀ size, size ≤ if charAt slice size = 'e' then
        Slim.scan isDigit slice
          (if charAt slice (size + 1) = '-' ∨ charAt slice (size + 1) = '+' then size + 1 + 1
            else size + 1)
      else size := by
    intro size
    split_ifs
    · exact Nat.le_trans (by omega) (grows isDigit _)
    · exact Nat.le_trans (by omega) (grows isDigit _)
    · exact Nat.le_refl _
  rw [numberSize]
  dsimp only
  refine Nat.lt_of_lt_of_le first ?_
  refine Nat.le_trans (Nat.le_trans (accepts '.' _) (grows isDigit _)) ?_
  exact Nat.le_trans (exponent _) (accepts 'f' _)

theorem strncmp_eq (source text : List Char) : ∀ pos, pos + text.length ≤ source.length →
    strncmp source text pos = .ok (text.isPrefixOf (source.drop pos)) := by
  induction text with
  | nil => exact fun pos enough => by rw [List.isPrefixOf_nil_left]; rfl
  | cons c text ih =>
      intro pos enough
      rw [List.length_cons] at enough
      have here : source.drop pos = charAt source pos :: source.drop (pos + 1) := by
        rw [List.drop_eq_getElem_cons (by omega : pos < source.length), charAt,
          List.getD_eq_getElem?_getD, List.getElem?_eq_getElem (by omega), Option.getD_some]
      rw [strncmp, read_eq (by omega), here, List.isPrefixOf_cons_cons]
      change (if charAt source pos = c then _ else _) = _
      by_cases same : charAt source pos = c
      · rw [if_pos same, ih (pos + 1) (by omega), same, beq_self_eq_true, Bool.true_and]
      · rw [if_neg same, beq_eq_false_iff_ne.mpr (Ne.symm same), Bool.false_and]
        rfl

theorem isPrefixOf_long {text slice : List Char} (long : slice.length < text.length) :
    text.isPrefixOf slice = false := by
  rw [Bool.eq_false_iff]
  intro isPrefix
  have le := (List.isPrefixOf_iff_prefix.mp isPrefix).length_le
  omega

theorem fixedToken_eq (source : List Char) (pos : Nat) (started : pos ≤ source.length)
    (identifierSize : Option Nat) (tokens : List (TokenTag × String)) :
    fixedToken source pos identifierSize tokens = .ok (
      (tokens.find? fun token => token.2.toList.isPrefixOf (source.drop pos) &&
        (identifierSize.all fun size => token.2.length == size)).map
          fun token => (token.1, token.2.length)) := by
  induction tokens with
  | nil => rfl
  | cons token tokens ih =>
      obtain ⟨tag, text⟩ := token
      rw [fixedToken, List.find?_cons]
      by_cases enough : pos + text.length ≤ source.length
      · rw [if_pos enough, strncmp_eq source text.toList pos (by rwa [String.length_toList]), ih]
        by_cases same : text.toList.isPrefixOf (source.drop pos)
        · by_cases size : identifierSize.all fun size => text.length == size
          · simp [same, size, bind, Except.bind, pure, Except.pure]
          · simp [same, size, bind, Except.bind]
        · simp [same, bind, Except.bind]
      · have long : text.toList.isPrefixOf (source.drop pos) = false := by
          refine isPrefixOf_long ?_
          rw [List.length_drop, String.length_toList]
          omega
        rw [if_neg enough, ih]
        dsimp only
        rw [long, Bool.false_and]

theorem endOfComment_le (source : List Char) (fuel : Nat) : ∀ pos, pos ≤ source.length →
    pos ≤ Tokenizer.endOfComment source fuel pos ∧
      Tokenizer.endOfComment source fuel pos ≤ source.length := by
  induction fuel with
  | zero => exact fun pos inside => ⟨Nat.le_refl pos, inside⟩
  | succ fuel ih =>
      intro pos inside
      rw [Tokenizer.endOfComment]
      split_ifs with before closed
      · exact ⟨Nat.le_succ pos, before⟩
      · have rest := ih (pos + 1) before
        exact ⟨by omega, rest.2⟩
      · exact ⟨Nat.le_refl pos, inside⟩

/-- A position in the source stays in it. -/
theorem eatFrom_inside (fuel : Nat) : ∀ t : Tokenizer, t.pos ≤ t.source.length →
    (Tokenizer.eatFrom fuel t).source = t.source ∧
      (Tokenizer.eatFrom fuel t).pos ≤ t.source.length := by
  induction fuel with
  | zero => exact fun t inside => ⟨rfl, inside⟩
  | succ fuel ih =>
      intro t inside
      rw [Tokenizer.eatFrom]
      dsimp only
      split_ifs with before newline blank line block
      · exact ih _ before
      · exact ih _ before
      · exact ih { t with pos := Slim.scan (· ≠ '\n') t.source t.pos } (scan_le inside)
      · have reached := endOfComment_le t.source t.source.length (t.pos + 3) (by omega)
        exact ih { t with
          pos := Tokenizer.endOfComment t.source t.source.length (t.pos + 3) } reached.2
      · exact ⟨rfl, inside⟩
      · exact ⟨rfl, inside⟩

/-- A string is opened here and not closed. -/
def Unclosed (slice : List Char) : Prop := slice.head? = some '"' ∧ '"' ∉ slice.tail

theorem fixedToken_tokenStrings {source : List Char} {pos : Nat} (started : pos ≤ source.length)
    (identifierSize : Option Nat) : fixedToken source pos identifierSize tokenStrings =
      .ok (Slim.fixedToken (source.drop pos) identifierSize) :=
  fixedToken_eq source pos started identifierSize tokenStrings

theorem eatWhitespaceAndComments_eq (t : Tokenizer) :
    eatWhitespaceAndComments t = .ok t.eatWhitespaceAndComments := eatFrom_eq _ t

theorem fixedOrExit_eq {t : Tokenizer} (inside : t.pos ≤ t.source.length) :
    fixedOrExit t = match Slim.fixedToken t.slice none with
      | some (tag, size) => .ok (t.accept tag t.pos size size)
      | none => .error .untokenizable := by
  rw [fixedOrExit, fixedToken_tokenStrings inside]
  rw [← Tokenizer.slice]
  cases Slim.fixedToken t.slice none with
  | none => rfl
  | some found => rfl

theorem takeWhile_body {body : List Char} (free : '"' ∉ body) (rest : List Char) :
    (body ++ '"' :: rest).takeWhile (· ≠ '"') = body := by
  rw [List.takeWhile_append_of_pos, List.takeWhile_cons_of_neg (by decide), List.append_nil]
  exact fun c inside => decide_eq_true fun quote => free (quote ▸ inside)

theorem stringSize_closed {body : List Char} (free : '"' ∉ body) (rest : List Char) :
    stringSize ('"' :: (body ++ '"' :: rest)) = body.length := by
  rw [stringSize, List.cons_append, List.drop_one, List.tail_cons, Slim.scan, List.drop_zero,
    List.append_assoc, List.cons_append, takeWhile_body free, Nat.zero_add]

theorem stringSize_unclosed {more : List Char} (free : '"' ∉ more) :
    stringSize ('"' :: more) = more.length + 1 := by
  have all : ∀ c ∈ more ++ ['\x00'], decide (c ≠ '"') = true := by
    intro c inside
    cases List.mem_append.mp inside with
    | inl before => exact decide_eq_true fun quote => free (quote ▸ before)
    | inr zero =>
        rw [List.mem_singleton.mp zero]
        decide
  rw [stringSize, List.cons_append, List.drop_one, List.tail_cons, Slim.scan, List.drop_zero,
    List.takeWhile_eq_self_iff.mpr all, List.length_append, List.length_singleton]
  omega

section Token

variable {u : Tokenizer}

theorem first_eq (u : Tokenizer) : charAt u.source u.pos = charAt u.slice 0 := by
  rw [Tokenizer.slice, charAt_drop, Nat.add_zero]

theorem slice_of_first {c : Char} (before : u.pos < u.source.length)
    (first : charAt u.slice 0 = c) : u.slice = c :: u.slice.tail := by
  rw [← first_eq, charAt, List.getD_eq_getElem?_getD, List.getElem?_eq_getElem before] at first
  rw [Tokenizer.slice, List.drop_eq_getElem_cons before, List.tail_cons]
  exact congrArg (· :: u.source.drop (u.pos + 1)) first

theorem word_eq (inside : u.pos ≤ u.source.length) :
    scan canMakeUpIdentifier u.source u.pos (u.source.length + 1) 0 =
      .ok (Slim.scan canMakeUpIdentifier u.slice 0) :=
  scan_slice_eq (by decide) inside (by omega)

theorem text_eq (inside : u.pos < u.source.length) :
    scan (· ≠ '"') u.source (u.pos + 1) (u.source.length + 1) 0 = .ok (stringSize u.slice) := by
  rw [scan_eq _ _ _ _ _ (by omega), stringSize, Tokenizer.slice,
    ← List.drop_append_of_le_length (Nat.le_of_lt inside), List.drop_drop]

end Token

/-- Without a string that is not closed, the tokenizer reads nothing behind the zero. -/
theorem nextToken_eq {t : Tokenizer} (inside : t.pos ≤ t.source.length)
    (closed : ¬ Unclosed t.eatWhitespaceAndComments.slice) :
    nextToken t = match t.nextToken with
      | some t' => .ok t'
      | none => .error .untokenizable := by
  have eaten := eatFrom_inside t.source.length t inside
  rw [nextToken, eatWhitespaceAndComments_eq, Tokenizer.nextToken]
  rw [← Tokenizer.eatWhitespaceAndComments] at eaten
  generalize t.eatWhitespaceAndComments = u at eaten closed ⊢
  have u_inside : u.pos ≤ u.source.length := by rw [eaten.1]; exact eaten.2
  change (if u.pos = u.source.length then _ else _) = _
  by_cases ended : u.pos = u.source.length
  · rw [if_pos ended, if_pos ended]
    rfl
  have before : u.pos < u.source.length := by omega
  rw [if_neg ended, if_neg ended, read_eq u_inside, first_eq]
  simp only [bind, Except.bind]
  by_cases word : canStartIdentifier (charAt u.slice 0)
  · rw [if_pos word, if_pos word, word_eq u_inside]
    simp only [fixedToken_tokenStrings u_inside]
    rw [← Tokenizer.slice]
    cases Slim.fixedToken u.slice (some (Slim.scan canMakeUpIdentifier u.slice 0)) with
    | none => rfl
    | some found => rfl
  rw [if_neg word, if_neg word]
  by_cases digit : isDigit (charAt u.slice 0)
  · rw [if_pos digit, if_pos digit, number_eq before]
    rfl
  rw [if_neg digit, if_neg digit, fixedOrExit_eq u_inside]
  by_cases quote : charAt u.slice 0 = '"'
  · have more := slice_of_first before quote
    have inside : '"' ∈ u.slice.tail := by
      by_contra free
      exact closed ⟨by rw [more]; rfl, free⟩
    obtain ⟨body, rest, split, free⟩ := List.eq_append_cons_of_mem inside
    rw [split] at more
    have size := stringSize_closed free rest
    have behind : charAt u.slice (body.length + 1) = '"' := by
      rw [more]
      exact charAt_append ('"' :: body) rest '"'
    have length := congrArg List.length more
    rw [Tokenizer.slice, List.length_drop, List.length_cons, List.length_append,
      List.length_cons] at length
    rw [← more] at size
    have same : charAt u.source (u.pos + 1 + body.length) = charAt u.slice (body.length + 1) := by
      rw [Tokenizer.slice, charAt_drop]
      congr 1
      omega
    rw [if_pos quote, text_eq before, size]
    simp only
    rw [read_eq (by omega), same]
    simp only
    rw [if_pos behind, if_pos ⟨quote, behind⟩]
    rfl
  · rw [if_neg quote, if_neg fun both => quote both.1]
    cases Slim.fixedToken u.slice none with
    | none => rfl
    | some found => rfl

/-- A string that is not closed is read two characters behind its last one. -/
theorem nextToken_unclosed {t : Tokenizer} (inside : t.pos ≤ t.source.length)
    (unclosed : Unclosed t.eatWhitespaceAndComments.slice) :
    nextToken t = .error .pastTerminator := by
  have eaten := eatFrom_inside t.source.length t inside
  rw [nextToken, eatWhitespaceAndComments_eq]
  rw [← Tokenizer.eatWhitespaceAndComments] at eaten
  generalize t.eatWhitespaceAndComments = u at eaten unclosed ⊢
  have u_inside : u.pos ≤ u.source.length := by rw [eaten.1]; exact eaten.2
  change (if u.pos = u.source.length then _ else _) = _
  obtain ⟨more, slice⟩ : ∃ more, u.slice = '"' :: more := by
    cases opened : u.slice with
    | nil =>
        rw [opened] at unclosed
        cases unclosed.1
    | cons c more =>
        rw [opened] at unclosed
        exact ⟨more, by rw [Option.some.inj unclosed.1]⟩
  have free : '"' ∉ more := by
    have tail := unclosed.2
    rwa [slice] at tail
  have before := pos_lt_of_slice slice
  have size : stringSize u.slice = more.length + 1 := by rw [slice, stringSize_unclosed free]
  have length := congrArg List.length slice
  rw [Tokenizer.slice, List.length_drop, List.length_cons] at length
  have first : charAt u.slice 0 = '"' := by rw [slice]; rfl
  rw [if_neg (by omega), read_eq u_inside, first_eq, first]
  simp only [bind, Except.bind]
  rw [if_neg (by decide), if_neg (by decide), if_pos trivial, text_eq before, size]
  simp only
  rw [read_past (by omega)]

end Shady.Slim.Checked
