import Mathlib.Data.List.Basic

/-!
# Buffers with bounds

A buffer is a list of cells. Reads and writes that leave it fail; on a buffer that is cut into parts
they are equations on the parts.
-/

set_option autoImplicit false

namespace Buffer

variable {α : Type}

/-- `count` cells from `start` on. -/
def read (buffer : List α) (start count : Nat) : Option (List α) :=
  if start + count ≤ buffer.length then some ((buffer.drop start).take count) else none

def write (buffer : List α) (start : Nat) (data : List α) : Option (List α) :=
  if start + data.length ≤ buffer.length then
    some (buffer.take start ++ data ++ buffer.drop (start + data.length))
  else none

/-- `memmove` inside one buffer. -/
def move (buffer : List α) (target source count : Nat) : Option (List α) := do
  write buffer target (← read buffer source count)

theorem read_parts {start count : Nat} (a b c : List α) (atStart : a.length = start)
    (counted : b.length = count) : read (a ++ b ++ c) start count = some b := by
  subst atStart counted
  have inside : a.length + b.length ≤ (a ++ b ++ c).length := by
    simp only [List.length_append]
    omega
  rw [read, if_pos inside, List.append_assoc, List.drop_left, List.take_left]

theorem read_eq_none {buffer : List α} {start count : Nat} :
    read buffer start count = none ↔ buffer.length < start + count := by
  unfold read
  split
  · simp only [reduceCtorEq, false_iff]
    omega
  · simp only [true_iff]
    omega

theorem write_parts {start : Nat} (a old c data : List α) (atStart : a.length = start)
    (same : old.length = data.length) : write (a ++ old ++ c) start data = some (a ++ data ++ c) := by
  subst atStart
  have inside : a.length + data.length ≤ (a ++ old ++ c).length := by
    simp only [List.length_append]
    omega
  rw [write, if_pos inside, List.append_assoc a old c, List.take_left, ← List.append_assoc a old c,
    ← same, ← List.length_append, List.drop_left]

theorem write_eq_none {buffer data : List α} {start : Nat} :
    write buffer start data = none ↔ buffer.length < start + data.length := by
  unfold write
  split
  · simp only [reduceCtorEq, false_iff]
    omega
  · simp only [true_iff]
    omega

/-- A part moves up by a gap, over what stands behind it. -/
theorem move_up {gap target source count : Nat} (a b c : List α) (room : gap ≤ c.length)
    (toHere : a.length + gap = target) (fromHere : a.length = source) (counted : b.length = count) :
    move (a ++ b ++ c) target source count = some (a ++ (b ++ c).take gap ++ b ++ c.drop gap) := by
  have parts : a ++ b ++ c =
      (a ++ (b ++ c).take gap) ++ ((b ++ c).drop gap).take b.length ++ c.drop gap := by
    have behind : c.drop gap = ((b ++ c).drop gap).drop b.length := by
      rw [List.drop_drop, Nat.add_comm, ← List.drop_drop, List.drop_left]
    rw [behind, List.append_assoc (a ++ _), List.take_append_drop, List.append_assoc a _ (List.drop _ _),
      List.take_append_drop, List.append_assoc]
  have lengths : (a ++ (b ++ c).take gap).length = target := by
    simp only [List.length_append, List.length_take]
    omega
  have same : (((b ++ c).drop gap).take b.length).length = b.length := by
    simp only [List.length_take, List.length_drop, List.length_append]
    omega
  have found := read_parts a b c fromHere counted
  have written := write_parts _ _ (c.drop gap) b lengths same
  rw [← parts] at written
  simp only [move, found, Option.bind_eq_bind, Option.bind_some, written]

/-- A part moves down over the hole in front of it. -/
theorem move_down {target source count : Nat} (a hole b c : List α) (toHere : a.length = target)
    (fromHere : a.length + hole.length = source) (counted : b.length = count) :
    move (a ++ hole ++ b ++ c) target source count =
      some (a ++ b ++ ((hole ++ b).drop b.length ++ c)) := by
  have parts : a ++ hole ++ b ++ c =
      a ++ (hole ++ b).take b.length ++ ((hole ++ b).drop b.length ++ c) := by
    rw [List.append_assoc a hole b, List.append_assoc a (List.take _ _), ← List.append_assoc (List.take _ _),
      List.take_append_drop, List.append_assoc]
  have same : ((hole ++ b).take b.length).length = b.length := by
    simp only [List.length_take, List.length_append]
    omega
  have atSource : (a ++ hole).length = source := by rw [List.length_append, fromHere]
  have found := read_parts (a ++ hole) b c atSource counted
  have written := write_parts a _ ((hole ++ b).drop b.length ++ c) b toHere same
  rw [← parts] at written
  simp only [move, found, Option.bind_eq_bind, Option.bind_some, written]

end Buffer
