import Mathlib.Data.List.Basic
import Mathlib.Data.List.Chain
import Mathlib.Tactic

/-!
# Escape codes

An escape character and a code stand for a character. A text is encoded one character after
another and decoded in disjoint pairs from the left, and decoding is the inverse of encoding.
-/

set_option autoImplicit false

namespace Escapes

/-- Codes with the characters that they stand for. The escape character is a code of itself. -/
structure Table (α : Type) where
  escape : α
  codes : List (α × α)
  escapes : (escape, escape) ∈ codes
  codesDistinct : (codes.map Prod.fst).Nodup
  meaningsDistinct : (codes.map Prod.snd).Nodup

section Lookups
variable {α β : Type} [BEq α] [LawfulBEq α]

theorem mem_of_lookup {a : α} {b : β} {l : List (α × β)} (found : l.lookup a = some b) :
    (a, b) ∈ l := by
  obtain ⟨before, after, shape, -⟩ := List.lookup_eq_some_iff.mp found
  rw [shape]
  exact List.mem_append_right before List.mem_cons_self

theorem lookup_of_mem {a : α} {b : β} {l : List (α × β)} (distinct : (l.map Prod.fst).Nodup)
    (member : (a, b) ∈ l) : l.lookup a = some b := by
  induction l with
  | nil => exact nomatch member
  | cons pair l ih =>
      rw [List.map_cons, List.nodup_cons] at distinct
      cases List.mem_cons.mp member with
      | inl same =>
          rw [← same, List.lookup_cons_self]
      | inr later =>
          have differs : (a == pair.1) = false := by
            apply beq_false_of_ne
            intro same
            apply distinct.1
            rw [← same]
            exact List.mem_map_of_mem later
          rw [List.lookup_cons, differs]
          exact ih distinct.2 later

end Lookups

namespace Table
variable {α : Type} [DecidableEq α] (t : Table α)

/-- What a code stands for. -/
def meaning (code : α) : Option α := t.codes.lookup code

/-- The code of a character. -/
def codeOf (c : α) : Option α := (t.codes.map Prod.swap).lookup c

theorem meaning_eq_some {code c : α} : t.meaning code = some c ↔ (code, c) ∈ t.codes :=
  ⟨mem_of_lookup, lookup_of_mem t.codesDistinct⟩

theorem codeOf_eq_some {c code : α} : t.codeOf c = some code ↔ (code, c) ∈ t.codes := by
  have swapped : (c, code) ∈ t.codes.map Prod.swap ↔ (code, c) ∈ t.codes := by
    rw [List.mem_map]
    constructor
    · rintro ⟨pair, member, same⟩
      cases same
      exact member
    · intro member
      exact ⟨_, member, rfl⟩
  have distinct : ((t.codes.map Prod.swap).map Prod.fst).Nodup := by
    rw [List.map_map]
    exact t.meaningsDistinct
  rw [← swapped]
  exact ⟨mem_of_lookup, lookup_of_mem distinct⟩

@[simp] theorem meaning_escape : t.meaning t.escape = some t.escape :=
  t.meaning_eq_some.mpr t.escapes

@[simp] theorem codeOf_escape : t.codeOf t.escape = some t.escape :=
  t.codeOf_eq_some.mpr t.escapes

theorem ne_escape_of_codeOf {c : α} (plain : t.codeOf c = none) : c ≠ t.escape := by
  intro same
  rw [same, codeOf_escape] at plain
  cases plain

/-- Only the escape character has itself as its code. -/
theorem codeOf_eq_escape {c : α} (coded : t.codeOf c = some t.escape) : c = t.escape := by
  have meant : t.meaning t.escape = some c := t.meaning_eq_some.mpr (t.codeOf_eq_some.mp coded)
  rw [meaning_escape] at meant
  exact (Option.some.inj meant).symm

/-! ## Encoding and decoding -/

def encodeChar (c : α) : List α :=
  match t.codeOf c with
  | some code => [t.escape, code]
  | none => [c]

def encode (s : List α) : List α := s.flatMap t.encodeChar

def decode : List α → List α
  | [] => []
  | [c] => [c]
  | c :: d :: rest =>
      if c = t.escape then
        match t.meaning d with
        | some meant => meant :: decode rest
        | none => c :: decode (d :: rest)
      else c :: decode (d :: rest)

@[simp] theorem encode_cons (c : α) (s : List α) :
    t.encode (c :: s) = t.encodeChar c ++ t.encode s := rfl

theorem decode_cons_of_ne {c : α} (ordinary : c ≠ t.escape) (s : List α) :
    t.decode (c :: s) = c :: t.decode s := by
  cases s with
  | nil => rfl
  | cons d rest => rw [decode, if_neg ordinary]

theorem decode_pair {d meant : α} (means : t.meaning d = some meant) (rest : List α) :
    t.decode (t.escape :: d :: rest) = meant :: t.decode rest := by
  rw [decode, if_pos rfl, means]

theorem decode_lone {d : α} (unknown : t.meaning d = none) (rest : List α) :
    t.decode (t.escape :: d :: rest) = t.escape :: t.decode (d :: rest) := by
  rw [decode, if_pos rfl, unknown]

/-- Decoding goes by the first character, and the second behind an escape. -/
@[elab_as_elim]
theorem pairsInduction {motive : List α → Prop} (empty : motive [])
    (last : motive [t.escape])
    (ordinary : ∀ c s, c ≠ t.escape → motive s → motive (c :: s))
    (pair : ∀ d meant rest, t.meaning d = some meant → motive rest →
      motive (t.escape :: d :: rest))
    (lone : ∀ d rest, t.meaning d = none → motive (d :: rest) → motive (t.escape :: d :: rest))
    (s : List α) : motive s := by
  induction s using decode.induct t with
  | case1 => exact empty
  | case2 c =>
      by_cases escaping : c = t.escape
      · rw [escaping]
        exact last
      · exact ordinary c [] escaping empty
  | case3 d rest meant means ih => exact pair d meant rest means ih
  | case4 d rest unknown ih => exact lone d rest unknown ih
  | case5 c d rest escaping ih => exact ordinary c _ escaping ih

theorem decode_encodeChar (c : α) (s : List α) :
    t.decode (t.encodeChar c ++ s) = c :: t.decode s := by
  cases coded : t.codeOf c with
  | some code =>
      rw [encodeChar, coded]
      exact t.decode_pair (t.meaning_eq_some.mpr (t.codeOf_eq_some.mp coded)) s
  | none =>
      rw [encodeChar, coded]
      exact t.decode_cons_of_ne (t.ne_escape_of_codeOf coded) s

@[simp] theorem decode_encode (s : List α) : t.decode (t.encode s) = s := by
  induction s with
  | nil => rfl
  | cons c s ih => rw [encode_cons, decode_encodeChar, ih]

/-! ## Escaped escapes apart from codes -/

/-- The text does not start with a code. -/
def NoCodeFirst (s : List α) : Prop := ∀ c ∈ s.head?, t.meaning c = none

/-- No escaped escape character, reading pairs from the left, comes directly before a code. -/
def Apart : List α → Prop
  | [] => True
  | [_] => True
  | c :: d :: rest =>
      if c = t.escape then
        match t.meaning d with
        | some _ => (d = t.escape → t.NoCodeFirst rest) ∧ Apart rest
        | none => Apart (d :: rest)
      else Apart (d :: rest)

theorem apart_cons_of_ne {c : α} (ordinary : c ≠ t.escape) (s : List α) :
    t.Apart (c :: s) ↔ t.Apart s := by
  cases s with
  | nil => exact Iff.rfl
  | cons d rest => rw [Apart, if_neg ordinary]

theorem apart_pair {d meant : α} (means : t.meaning d = some meant) (rest : List α) :
    t.Apart (t.escape :: d :: rest) ↔ (d = t.escape → t.NoCodeFirst rest) ∧ t.Apart rest := by
  rw [Apart, if_pos rfl, means]

theorem apart_lone {d : α} (unknown : t.meaning d = none) (rest : List α) :
    t.Apart (t.escape :: d :: rest) ↔ t.Apart (d :: rest) := by
  rw [Apart, if_pos rfl, unknown]

/-- Escape characters come directly before characters only that neither are codes nor have one. -/
def Isolated (s : List α) : Prop :=
  s.IsChain fun a b => a = t.escape → t.codeOf b = none ∧ t.meaning b = none

theorem noCodeFirst_encode (s : List α) :
    t.NoCodeFirst (t.encode s) ↔ ∀ b ∈ s.head?, t.codeOf b = none ∧ t.meaning b = none := by
  cases s with
  | nil => simp [NoCodeFirst, encode]
  | cons b s =>
      cases coded : t.codeOf b with
      | some code => simp [NoCodeFirst, encodeChar, coded]
      | none => simp [NoCodeFirst, encodeChar, coded]

/-- In the encoding of a text escaped escapes are apart from codes if and only if the escape
characters of the text are isolated. -/
theorem apart_encode (s : List α) : t.Apart (t.encode s) ↔ t.Isolated s := by
  induction s with
  | nil => exact iff_of_true trivial List.isChain_nil
  | cons c s ih =>
      have chain : t.Isolated (c :: s) ↔
          (c = t.escape → ∀ b ∈ s.head?, t.codeOf b = none ∧ t.meaning b = none) ∧ t.Isolated s := by
        rw [Isolated, List.isChain_cons]
        exact and_congr_left' ⟨fun all escaping b first => all b first escaping,
          fun all b first escaping => all escaping b first⟩
      rw [chain, ← ih, ← noCodeFirst_encode, encode_cons]
      cases coded : t.codeOf c with
      | some code =>
          have means := t.meaning_eq_some.mpr (t.codeOf_eq_some.mp coded)
          have escaping : code = t.escape ↔ c = t.escape := by
            constructor
            · intro same
              exact t.codeOf_eq_escape (same ▸ coded)
            · intro same
              rw [same, codeOf_escape] at coded
              exact (Option.some.inj coded).symm
          simp only [encodeChar, coded, List.cons_append, List.nil_append]
          rw [apart_pair t means, escaping]
      | none =>
          have ordinary := t.ne_escape_of_codeOf coded
          simp only [encodeChar, coded, List.cons_append, List.nil_append]
          rw [apart_cons_of_ne t ordinary]
          exact ⟨fun apart => ⟨fun same => absurd same ordinary, apart⟩, And.right⟩

end Table

end Escapes
