import Mathlib.Data.List.Basic
import Mathlib.Tactic

/-!
# String literals of C

What a string literal stands for, after trigraphs are replaced. The members of the execution
character set are those of the source character set, one byte each; a universal character name,
whose bytes depend on the implementation, is not read here.
-/

set_option autoImplicit false

namespace CLiteral

/-! ## Trigraphs -/

def trigraph : Char → Option Char
  | '=' => some '#'
  | '/' => some '\\'
  | '\'' => some '^'
  | '(' => some '['
  | ')' => some ']'
  | '!' => some '|'
  | '<' => some '\x7b'
  | '>' => some '\x7d'
  | '-' => some '~'
  | _ => none

def replaceTrigraphs : List Char → List Char
  | a :: b :: c :: rest =>
      match if a = '?' ∧ b = '?' then trigraph c else none with
      | some d => d :: replaceTrigraphs rest
      | none => a :: replaceTrigraphs (b :: c :: rest)
  | s => s

def NoTrigraph (s : List Char) : Prop := ∀ c, ['?', '?', c] <:+: s → trigraph c = none

/-! ## Literals -/

def simpleEscapes : List (Char × Char) :=
  [('\'', '\''), ('"', '"'), ('?', '?'), ('\\', '\\'), ('a', '\x07'), ('b', '\x08'), ('f', '\x0c'),
    ('n', '\n'), ('r', '\r'), ('t', '\t'), ('v', '\x0b')]

def isOctal (c : Char) : Bool := '0' ≤ c && c ≤ '7'

def isHex (c : Char) : Bool := ('0' ≤ c && c ≤ '9') || ('a' ≤ c && c ≤ 'f') || ('A' ≤ c && c ≤ 'F')

def digit (c : Char) : Nat :=
  if c ≤ '9' then c.toNat - '0'.toNat
  else if c ≤ 'F' then c.toNat - 'A'.toNat + 10
  else c.toNat - 'a'.toNat + 10

/-- The byte with a number in a base, if there is one. -/
def byte (base : Nat) (digits : List Char) : Option Char :=
  let n := digits.foldl (fun n c => base * n + digit c) 0
  if digits = [] ∨ 255 < n then none else some (Char.ofNat n)

/-- What follows a backslash: a simple escape, `x` with as many digits as come, or at most three
octal digits. -/
def escapeSequence (s : List Char) : Option (Char × List Char) :=
  match s with
  | [] => none
  | c :: rest =>
      match simpleEscapes.lookup c with
      | some d => some (d, rest)
      | none =>
          if c = 'x' then (byte 16 (rest.takeWhile isHex)).map fun d => (d, rest.dropWhile isHex)
          else
            let digits := ((c :: rest).take 3).takeWhile isOctal
            (byte 8 digits).map fun d => (d, (c :: rest).drop digits.length)

/-- The characters up to the closing quote, which has to be the last. -/
def sChars : Nat → List Char → Option (List Char)
  | 0, _ => none
  | _, [] => none
  | fuel + 1, c :: rest =>
      if c = '"' then if rest = [] then some [] else none
      else if c = '\n' then none
      else if c = '\\' then
        (escapeSequence rest).bind fun (d, rest) => (sChars fuel rest).map (d :: ·)
      else (sChars fuel rest).map (c :: ·)

/-- What a text stands for that is one string literal. -/
def value (text : List Char) : Option (List Char) :=
  match replaceTrigraphs text with
  | '"' :: rest => sChars (rest.length + 1) rest
  | _ => none

/-! ## Trigraphs shorten a text -/

/-- A character that does not begin a trigraph stays. -/
theorem replaceTrigraphs_cons {a : Char} {s : List Char}
    (lone : ∀ c rest, a = '?' → s = '?' :: c :: rest → trigraph c = none) :
    replaceTrigraphs (a :: s) = a :: replaceTrigraphs s := by
  match s with
  | [] => rfl
  | [b] => rfl
  | b :: c :: rest =>
      have none_ : (if a = '?' ∧ b = '?' then trigraph c else none) = none := by
        split
        · rename_i marks
          exact lone c rest marks.1 (by rw [marks.2])
        · rfl
      rw [replaceTrigraphs, none_]

theorem trigraph_inside {a b c : Char} {rest : List Char}
    (none_ : ∀ d, ['?', '?', d] <:+: a :: b :: c :: rest → trigraph d = none) :
    (if a = '?' ∧ b = '?' then trigraph c else none) = none := by
  split
  · rename_i marks
    rw [marks.1, marks.2] at none_
    exact none_ c ⟨[], rest, rfl⟩
  · rfl

theorem replaceTrigraphs_of_none {s : List Char} (none_ : NoTrigraph s) : replaceTrigraphs s = s := by
  induction s using replaceTrigraphs.induct with
  | case1 a b c rest d found ih =>
      rw [trigraph_inside none_] at found
      cases found
  | case2 a b c rest found ih =>
      rw [replaceTrigraphs, found]
      exact congrArg (a :: ·) (ih fun d inside => none_ d (List.infix_cons inside))
  | case3 s short =>
      rw [replaceTrigraphs]
      exact short

theorem length_replaceTrigraphs_le (s : List Char) : (replaceTrigraphs s).length ≤ s.length := by
  induction s using replaceTrigraphs.induct with
  | case1 a b c rest d found ih =>
      rw [replaceTrigraphs, found]
      simp only [List.length_cons]
      omega
  | case2 a b c rest found ih =>
      rw [replaceTrigraphs, found]
      exact Nat.succ_le_succ ih
  | case3 s short =>
      rw [replaceTrigraphs]
      exact short

theorem length_replaceTrigraphs_lt {s : List Char} (some_ : ¬ NoTrigraph s) :
    (replaceTrigraphs s).length < s.length := by
  induction s using replaceTrigraphs.induct with
  | case1 a b c rest d found ih =>
      have rest_le := length_replaceTrigraphs_le rest
      rw [replaceTrigraphs, found]
      simp only [List.length_cons]
      omega
  | case2 a b c rest found ih =>
      rw [replaceTrigraphs, found]
      apply Nat.succ_lt_succ
      apply ih
      intro later
      apply some_
      intro d inside
      cases List.infix_cons_iff.mp inside with
      | inl first =>
          obtain ⟨after, shape⟩ := first
          simp only [List.cons_append, List.nil_append, List.cons.injEq] at shape
          rw [if_pos ⟨shape.1.symm, shape.2.1.symm⟩] at found
          rw [shape.2.2.1]
          exact found
      | inr inside => exact later d inside
  | case3 s short =>
      exfalso
      apply some_
      intro d inside
      obtain ⟨before, after, shape⟩ := inside
      have long := congrArg List.length shape
      match s, short with
      | [], _ => simp at long
      | [a], _ => simp at long; omega
      | [a, b], _ => simp at long; omega
      | a :: b :: c :: rest, short => exact (short a b c rest rfl).elim

/-! ## What an escape sequence leaves -/

theorem escapeSequence_suffix {s rest : List Char} {d : Char}
    (read : escapeSequence s = some (d, rest)) : ∃ c more, s = c :: more ∧ rest <:+ more := by
  cases s with
  | nil => exact nomatch read
  | cons c more =>
      refine ⟨c, more, rfl, ?_⟩
      rw [escapeSequence] at read
      cases simple : simpleEscapes.lookup c with
      | some e =>
          rw [simple] at read
          cases read
          exact List.suffix_rfl
      | none =>
          simp only [simple] at read
          split at read
          · obtain ⟨e, -, same⟩ := Option.map_eq_some_iff.mp read
            cases same
            exact List.dropWhile_suffix _
          · obtain ⟨e, isByte, same⟩ := Option.map_eq_some_iff.mp read
            cases same
            have nonempty : ((c :: more).take 3).takeWhile isOctal ≠ [] := by
              intro empty
              rw [byte, if_pos (Or.inl empty)] at isByte
              cases isByte
            obtain ⟨k, positive⟩ := Nat.exists_eq_succ_of_ne_zero
              (fun zero => nonempty (List.length_eq_zero_iff.mp zero))
            rw [positive, List.drop_succ_cons]
            exact List.drop_suffix k more

end CLiteral
