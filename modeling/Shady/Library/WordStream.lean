import Mathlib.Data.List.Basic
import Mathlib.Tactic

/-!
# Streams of words

Two codecs for lists of words. A frame is a word that tells how many words the frame has,
followed by the others. A string is a list of bytes without zeros, four to a word, the lowest
first, that ends with a zero byte and is padded with zeros.
-/

set_option autoImplicit false

namespace WordStream

/-! ## Frames -/

section Frames
variable {W : Type} (size : W → Nat)

/-- The frames that a list of words consists of. -/
def split : Nat → List W → Option (List (W × List W))
  | _, [] => some []
  | 0, _ :: _ => none
  | fuel + 1, w :: ws =>
      if size w = 0 ∨ ws.length + 1 < size w then none
      else (split fuel (ws.drop (size w - 1))).map fun rest => (w, ws.take (size w - 1)) :: rest

def frames (ws : List W) : Option (List (W × List W)) := split size ws.length ws

def join (fs : List (W × List W)) : List W := fs.flatMap fun f => f.1 :: f.2

variable {size}

theorem split_join {fs : List (W × List W)} (right : ∀ f ∈ fs, size f.1 = f.2.length + 1) :
    ∀ fuel, (join fs).length ≤ fuel → split size fuel (join fs) = some fs := by
  induction fs with
  | nil =>
      intro fuel _
      cases fuel <;> rfl
  | cons f fs ih =>
      intro fuel enough
      have sized := right f List.mem_cons_self
      have shape : join (f :: fs) = f.1 :: (f.2 ++ join fs) := rfl
      rw [shape] at enough ⊢
      cases fuel with
      | zero => exact absurd enough (Nat.not_succ_le_zero _)
      | succ fuel =>
          have fits : ¬ (size f.1 = 0 ∨ (f.2 ++ join fs).length + 1 < size f.1) := by
            rw [sized, List.length_append]
            omega
          rw [split, if_neg fits, sized, Nat.add_sub_cancel, List.drop_left, List.take_left]
          rw [ih (fun f member => right f (List.mem_cons_of_mem _ member)) fuel]
          · rfl
          · rw [List.length_cons, List.length_append] at enough
            omega

/-- Frames whose first words tell their sizes can be told apart. -/
theorem frames_join {fs : List (W × List W)} (right : ∀ f ∈ fs, size f.1 = f.2.length + 1) :
    frames size (join fs) = some fs :=
  split_join right _ le_rfl

end Frames

/-! ## Strings -/

abbrev Byte := BitVec 8

def ofBytes (b0 b1 b2 b3 : Byte) : BitVec 32 := b3 ++ b2 ++ b1 ++ b0

/-- The bytes of a word, the lowest first. -/
def bytes (w : BitVec 32) : List Byte :=
  [w.extractLsb' 0 8, w.extractLsb' 8 8, w.extractLsb' 16 8, w.extractLsb' 24 8]

@[simp] theorem bytes_ofBytes (b0 b1 b2 b3 : Byte) :
    bytes (ofBytes b0 b1 b2 b3) = [b0, b1, b2, b3] := by
  unfold bytes ofBytes
  have byte : ∀ (k : Nat) (b : Byte), (∀ i < 8, (b3 ++ b2 ++ b1 ++ b0).getLsbD (k + i) = b.getLsbD i) →
      (b3 ++ b2 ++ b1 ++ b0).extractLsb' k 8 = b := by
    intro k b same
    apply BitVec.eq_of_getLsbD_eq
    intro i less
    rw [BitVec.getLsbD_extractLsb', same i less]
    simp [less]
  rw [byte 0 b0, byte 8 b1, byte 16 b2, byte 24 b3]
  all_goals
    intro i less
    simp only [BitVec.getLsbD_append]
    grind

/-- The words of a string, with the zero at its end. -/
def pack : List Byte → List (BitVec 32)
  | [] => [ofBytes 0 0 0 0]
  | [b0] => [ofBytes b0 0 0 0]
  | [b0, b1] => [ofBytes b0 b1 0 0]
  | [b0, b1, b2] => [ofBytes b0 b1 b2 0]
  | b0 :: b1 :: b2 :: b3 :: rest => ofBytes b0 b1 b2 b3 :: pack rest

theorem length_pack (s : List Byte) : (pack s).length = s.length / 4 + 1 := by
  induction s using pack.induct with
  | case1 => simp [pack]
  | case2 b0 => simp [pack]
  | case3 b0 b1 => simp [pack]
  | case4 b0 b1 b2 => simp [pack]
  | case5 b0 b1 b2 b3 rest ih =>
      rw [pack, List.length_cons, ih]
      simp only [List.length_cons]
      omega

/-- The bytes of the words, up to the padding. -/
theorem bytes_pack (s : List Byte) : ∃ zeros, (pack s).flatMap bytes = s ++ 0 :: zeros := by
  induction s using pack.induct with
  | case1 => exact ⟨[0, 0, 0], by simp [pack]⟩
  | case2 b0 => exact ⟨[0, 0], by simp [pack]⟩
  | case3 b0 b1 => exact ⟨[0], by simp [pack]⟩
  | case4 b0 b1 b2 => exact ⟨[], by simp [pack]⟩
  | case5 b0 b1 b2 b3 rest ih =>
      obtain ⟨zeros, same⟩ := ih
      exact ⟨zeros, by simp [pack, same]⟩

/-- A string without zeros is what stands in front of the first zero. -/
theorem takeWhile_pack {s : List Byte} (noZero : 0 ∉ s) :
    ((pack s).flatMap bytes).takeWhile (· ≠ 0) = s := by
  obtain ⟨zeros, same⟩ := bytes_pack s
  have nonzero : ∀ b ∈ s, decide (b ≠ 0) = true := by
    intro b held
    exact decide_eq_true fun zero => noZero (zero ▸ held)
  rw [same, List.takeWhile_append_of_pos nonzero]
  simp

end WordStream
