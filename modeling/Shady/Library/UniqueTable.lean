import Mathlib.Data.List.Basic
import Mathlib.Tactic

/-!
# Unique tables

Contents are only ever appended, and a set of entries says which of them a lookup can find.
What has a key is looked up before it is added, so that no key occurs twice; what has none
is never found again.
-/

set_option autoImplicit false

namespace UniqueTable

structure Table (α : Type*) where
  contents : List α
  entries : List Nat

namespace Table
variable {α κ : Type*} (key : α → Option κ) (t : Table α)

def empty : Table α := ⟨[], []⟩

def keyAt (i : Nat) : Option κ := t.contents[i]?.bind key

/-- Every content is an entry, and no key occurs twice. -/
structure Exact : Prop where
  listed : ∀ i, i ∈ t.entries ↔ i < t.contents.length
  distinct : ∀ i j k, t.keyAt key i = some k → t.keyAt key j = some k → i = j

def add (a : α) : Table α := ⟨t.contents ++ [a], t.entries ++ [t.contents.length]⟩

section Keys
variable {key t}

theorem exact_empty : Exact key (empty : Table α) where
  listed i := by simp [empty]
  distinct i j k found := by simp [empty, keyAt] at found

theorem lt_of_keyAt {i : Nat} {k : κ} (found : t.keyAt key i = some k) : i < t.contents.length := by
  obtain ⟨a, at_, -⟩ := Option.bind_eq_some_iff.mp found
  exact (List.getElem?_eq_some_iff.mp at_).1

theorem keyAt_add {a : α} {i : Nat} (inside : i < t.contents.length) :
    (t.add a).keyAt key i = t.keyAt key i := by
  rw [keyAt, keyAt, add, List.getElem?_append_left inside]

theorem keyAt_add_last {a : α} : (t.add a).keyAt key t.contents.length = key a := by
  simp [keyAt, add]

end Keys

/-! ## Lookups -/

variable [DecidableEq κ]

def find (k : κ) : Option Nat := t.entries.find? fun i => t.keyAt key i == some k

/-- Two entries are the same when they are one, or have the same key. -/
def same (i j : Nat) : Bool :=
  i == j || ((t.keyAt key i).isSome && t.keyAt key i == t.keyAt key j)

/-- Inserts an entry, in the place of one that is the same if there is one. -/
def put (i : Nat) : Table α :=
  if t.entries.any (t.same key i) then
    ⟨t.contents, t.entries.map fun j => if t.same key i j then i else j⟩
  else ⟨t.contents, t.entries ++ [i]⟩

variable {key t}

theorem Exact.find_eq_some (exact : t.Exact key) {k : κ} {i : Nat} :
    t.find key k = some i ↔ t.keyAt key i = some k := by
  constructor
  · intro found
    simpa using List.find?_some found
  · intro at_
    cases found : t.find key k with
    | some j =>
        have atj : t.keyAt key j = some k := by simpa using List.find?_some found
        rw [exact.distinct i j k at_ atj]
    | none =>
        have absent := List.find?_eq_none.mp found i ((exact.listed i).mpr (lt_of_keyAt at_))
        simp [at_] at absent

theorem Exact.find_eq_none (exact : t.Exact key) {k : κ} :
    t.find key k = none ↔ ∀ i, t.keyAt key i ≠ some k := by
  constructor
  · intro absent i at_
    rw [exact.find_eq_some.mpr at_] at absent
    cases absent
  · intro absent
    cases found : t.find key k with
    | none => rfl
    | some i => exact absurd (exact.find_eq_some.mp found) (absent i)

theorem Exact.add (exact : t.Exact key) {a : α}
    (fresh : ∀ k, key a = some k → t.find key k = none) : (t.add a).Exact key where
  listed i := by
    simp only [Table.add, List.mem_append, List.mem_singleton, List.length_append,
      List.length_singleton, exact.listed i]
    omega
  distinct i j k at_ at' := by
    have absent : key a = some k → ∀ i, t.keyAt key i ≠ some k := fun added =>
      exact.find_eq_none.mp (fresh k added)
    have lower := lt_of_keyAt at_
    have lower' := lt_of_keyAt at'
    simp only [Table.add, List.length_append, List.length_singleton] at lower lower'
    by_cases inside : i < t.contents.length
    · rw [keyAt_add inside] at at_
      by_cases inside' : j < t.contents.length
      · rw [keyAt_add inside'] at at'
        exact exact.distinct i j k at_ at'
      · have last : j = t.contents.length := by omega
        rw [last, keyAt_add_last] at at'
        exact absurd at_ (absent at' i)
    · have last : i = t.contents.length := by omega
      by_cases inside' : j < t.contents.length
      · rw [keyAt_add inside'] at at'
        rw [last, keyAt_add_last] at at_
        exact absurd at' (absent at_ j)
      · omega

/-- Inserting what was appended, and has a new key, adds it. -/
theorem Exact.put_fresh (exact : t.Exact key) {a : α} {k : κ} (hasKey : key a = some k)
    (fresh : t.find key k = none) :
    (⟨t.contents ++ [a], t.entries⟩ : Table α).put key t.contents.length = t.add a := by
  have apart : t.entries.any ((⟨t.contents ++ [a], t.entries⟩ : Table α).same key t.contents.length)
      = false := by
    rw [List.any_eq_false]
    intro j listed
    have inside : j < t.contents.length := (exact.listed j).mp listed
    have there : (⟨t.contents ++ [a], t.entries⟩ : Table α).keyAt key j = t.keyAt key j :=
      keyAt_add (a := a) inside
    have last : (⟨t.contents ++ [a], t.entries⟩ : Table α).keyAt key t.contents.length = some k :=
      keyAt_add_last.trans hasKey
    have other : t.keyAt key j ≠ some k := exact.find_eq_none.mp fresh j
    simp only [same, there, last, Option.isSome_some, Bool.true_and, Bool.or_eq_true, beq_iff_eq]
    rintro (here | equal)
    · omega
    · exact other equal.symm
  rw [put, apart]
  rfl

/-- Inserting what is there already changes nothing. -/
theorem Exact.put (exact : t.Exact key) {i : Nat} (inside : i < t.contents.length) :
    t.put key i = t := by
  have only : ∀ j, t.same key i j = true → i = j := by
    intro j matching
    simp only [same, Bool.or_eq_true, beq_iff_eq, Bool.and_eq_true] at matching
    cases matching with
    | inl equal => exact equal
    | inr keys =>
        obtain ⟨k, at_⟩ := Option.isSome_iff_exists.mp keys.1
        exact exact.distinct i j k at_ (keys.2.symm.trans at_)
  have present : t.entries.any (t.same key i) = true := by
    rw [List.any_eq_true]
    exact ⟨i, (exact.listed i).mpr inside, by simp [same]⟩
  have unchanged : (t.entries.map fun j => if t.same key i j then i else j) = t.entries := by
    apply List.map_congr_left _ |>.trans (List.map_id _)
    intro j _
    split
    case isTrue matching => exact only j matching
    case isFalse _ => rfl
  rw [Table.put, if_pos present, unchanged]

end Table

end UniqueTable
