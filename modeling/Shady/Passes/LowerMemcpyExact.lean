import Mathlib.Algebra.Order.Ring.Nat
import Shady.Passes.LowerMemcpy

/-!
# Which copies and fills are exact

Each byte of the destination is written in the turn of its word, from what the source holds at
that time. The loops move whole words, and at least one of them.
-/

set_option autoImplicit false

namespace Shady.Memcpy

/-! ## Bytes of loads and stores -/

section Bytes
variable {memory : ByteMemory} {start place : Place}

@[simp] theorem add_space (bytes : Nat) : (start.add bytes).space = start.space := rfl

@[simp] theorem add_address (bytes : Nat) : (start.add bytes).address = start.address + bytes := rfl

theorem add_add (first second : Nat) : (start.add first).add second = start.add (first + second) := by
  simp [Place.add, Nat.add_assoc]

theorem inRange_add {bytes i : Nat} : InRange start bytes (start.add i) ↔ i < bytes := by
  simp [InRange]

theorem add_eq_add_iff {first second : Place} {i j : Nat} :
    first.add i = second.add j ↔ first.space = second.space ∧ first.address + i = second.address + j := by
  simp [Place.add]

theorem add_inj {i j : Nat} : start.add i = start.add j ↔ i = j := by
  simp [Place.add]

/-- A place in the range is so many bytes behind its start. -/
theorem InRange.eq_add {bytes : Nat} (inRange : InRange start bytes place) :
    place = start.add (place.address - start.address) := by
  obtain ⟨space, above, -⟩ := inRange
  cases place
  cases space
  simp only [Place.add, Place.mk.injEq, true_and]
  simp only at above
  omega

@[simp] theorem length_loadBytes (bytes : Nat) : (loadBytes memory start bytes).length = bytes := by
  simp [loadBytes, places]

theorem getD_loadBytes {bytes i : Nat} (small : i < bytes) : (loadBytes memory start bytes).getD i 0 = memory (start.add i) := by
  simp [loadBytes, places, small]

theorem mem_places {bytes : Nat} : place ∈ places start bytes ↔ InRange start bytes place := by
  constructor
  · intro member
    obtain ⟨i, small, rfl⟩ := List.mem_map.mp member
    exact inRange_add.mpr (List.mem_range.mp small)
  · intro inRange
    rw [inRange.eq_add]
    rw [inRange.eq_add, inRange_add] at inRange
    exact List.mem_map.mpr ⟨_, List.mem_range.mpr inRange, rfl⟩

@[simp] theorem length_bytesOf (width : IntSizes) (value : BitVec width.bits) :
    (bytesOf width value).length = width.sizeInBytes := by
  simp [bytesOf]

theorem sizeInBytes_pos (width : IntSizes) : 0 < width.sizeInBytes := by
  cases width <;> decide

end Bytes

/-! ## Turns of a copy -/

section Copy
variable {config : PointerModel} {dst src : Place} {memory : ByteMemory}

/-- Memory and the places read after some turns of a copy. -/
def copied (config : PointerModel) (dst src : Place) (memory : ByteMemory) (k : Nat) : CopyState :=
  after (copyTurn config dst src) ⟨memory, []⟩ k

theorem copied_succ {k : Nat} (small : k < 2 ^ 32) (place : Place) :
    (copied config dst src memory (k + 1)).memory place =
      if InRange (dst.add (k * config.wordSize.sizeInBytes)) config.wordSize.sizeInBytes place then
        (copied config dst src memory k).memory (src.add (place.address - dst.address))
      else (copied config dst src memory k).memory place := by
  have index : (BitVec.ofNat 32 k).toNat = k := by rw [BitVec.toNat_ofNat, Nat.mod_eq_of_lt small]
  change storeBytes _ _ _ place = _
  rw [index, storeBytes, length_loadBytes]
  split
  · rename_i inRange
    have inside := inRange
    rw [inRange.eq_add, inRange_add] at inside
    rw [getD_loadBytes inside, add_add]
    obtain ⟨-, above, -⟩ := inRange
    rw [add_address] at above ⊢
    congr 2
    omega
  · rfl

/-- What is not behind the words copied so far is as it was. -/
theorem copied_frame {k : Nat} (small : k ≤ 2 ^ 32) {place : Place}
    (outside : ¬ InRange dst (k * config.wordSize.sizeInBytes) place) :
    (copied config dst src memory k).memory place = memory place := by
  induction k with
  | zero => rfl
  | succ k ih =>
      have size : (k + 1) * config.wordSize.sizeInBytes = k * config.wordSize.sizeInBytes + config.wordSize.sizeInBytes :=
        Nat.succ_mul _ _
      have notWord : ¬ InRange (dst.add (k * config.wordSize.sizeInBytes)) config.wordSize.sizeInBytes place := by
        intro word
        obtain ⟨space, above, below⟩ := word
        rw [add_address] at above below
        exact outside ⟨space, by omega, by omega⟩
      have notBefore : ¬ InRange dst (k * config.wordSize.sizeInBytes) place := by
        intro before
        obtain ⟨space, above, below⟩ := before
        exact outside ⟨space, above, by omega⟩
      rw [copied_succ (by omega), if_neg notWord]
      exact ih (by omega) notBefore

/-- A byte of the destination is what the source held in the turn of its word. -/
theorem copied_byte {k o : Nat} (small : k ≤ 2 ^ 32) (inside : o < k * config.wordSize.sizeInBytes) :
    (copied config dst src memory k).memory (dst.add o) =
      (copied config dst src memory (o / config.wordSize.sizeInBytes)).memory (src.add o) := by
  have positive := sizeInBytes_pos config.wordSize
  induction k with
  | zero => omega
  | succ k ih =>
      rw [Nat.succ_mul] at inside
      rw [copied_succ (by omega)]
      by_cases word : k * config.wordSize.sizeInBytes ≤ o
      · have turn : o / config.wordSize.sizeInBytes = k :=
          Nat.div_eq_of_lt_le word (by rw [Nat.succ_mul]; exact inside)
        rw [if_pos ⟨rfl, by rw [add_address, add_address]; omega, by rw [add_address, add_address]; omega⟩, turn,
          add_address, Nat.add_sub_cancel_left]
      · have notWord : ¬ InRange (dst.add (k * config.wordSize.sizeInBytes)) config.wordSize.sizeInBytes (dst.add o) := by
          intro inWord
          obtain ⟨-, above, -⟩ := inWord
          rw [add_address, add_address] at above
          omega
        rw [if_neg notWord]
        exact ih (by omega) (by omega)

theorem mem_read {k : Nat} (small : k ≤ 2 ^ 32) {place : Place} :
    place ∈ (copied config dst src memory k).read ↔ InRange src (k * config.wordSize.sizeInBytes) place := by
  induction k with
  | zero => simp [copied, after, InRange]
  | succ k ih =>
      have index : (BitVec.ofNat 32 k).toNat = k := by rw [BitVec.toNat_ofNat, Nat.mod_eq_of_lt (by omega)]
      change place ∈ (copied config dst src memory k).read ++ places _ _ ↔ _
      rw [List.mem_append, ih (by omega), mem_places, index, Nat.succ_mul]
      simp only [InRange, add_space, add_address]
      constructor
      · rintro (⟨space, above, below⟩ | ⟨space, above, below⟩) <;> exact ⟨space, by omega, by omega⟩
      · rintro ⟨space, above, below⟩
        by_cases before : place.address < src.address + k * config.wordSize.sizeInBytes
        · exact .inl ⟨space, above, before⟩
        · exact .inr ⟨space, by omega, by omega⟩

end Copy

/-! ## Counts -/

section Counts
variable {config : PointerModel}

/-- Turns over a number of words that is truncated twice, by the pointers and by the counter. -/
theorem turnsOf_iff {count word pointers counter : Nat} (positive : 0 < word)
    (fits : word < pointers) (counts : 1 < counter) :
    max 1 (count % pointers / word % counter) * word = count ↔
      0 < count ∧ word ∣ count ∧ count / word < counter ∧ count < pointers := by
  constructor
  · intro exact
    have words_le : count % pointers / word % counter ≤ count % pointers / word := Nat.mod_le _ _
    have below : count % pointers < pointers := Nat.mod_lt _ (by omega)
    have within : count % pointers / word * word ≤ count % pointers := Nat.div_mul_le_self _ _
    have dividend : count / word = max 1 (count % pointers / word % counter) := by
      conv_lhs => rw [← exact]
      exact Nat.mul_div_cancel _ positive
    have counted : count % pointers / word % counter < counter := Nat.mod_lt _ (by omega)
    refine ⟨?_, ⟨_, (Nat.mul_comm _ _).trans exact |>.symm⟩, by omega, ?_⟩
    · rw [← exact]
      exact Nat.mul_pos (by omega) positive
    · by_cases several : 1 ≤ count % pointers / word % counter
      · have mono := Nat.mul_le_mul_right word words_le
        rw [max_eq_right several] at exact
        omega
      · rw [max_eq_left (by omega), Nat.one_mul] at exact
        omega
  · rintro ⟨some_bytes, ⟨words, rfl⟩, few, low⟩
    have words_eq : word * words / word = words := Nat.mul_div_cancel_left words positive
    rw [words_eq] at few
    have some_words : 0 < words := by
      by_contra none
      rw [Nat.eq_zero_of_not_pos none, Nat.mul_zero] at some_bytes
      omega
    rw [Nat.mod_eq_of_lt low, words_eq, Nat.mod_eq_of_lt few, max_eq_right some_words,
      Nat.mul_comm]

/-- The words moved are exactly the count. -/
theorem copyWords_iff {countWidth : IntSizes} (count : BitVec countWidth.bits) :
    turns (copyNumInWords config count) * config.wordSize.sizeInBytes = count.toNat ↔
      0 < count.toNat ∧ config.wordSize.sizeInBytes ∣ count.toNat ∧
        count.toNat / config.wordSize.sizeInBytes < 2 ^ 32 ∧ count.toNat < 2 ^ config.ptrSize.bits := by
  have words : (copyNumInWords config count).toNat =
      count.toNat % 2 ^ config.ptrSize.bits / config.wordSize.sizeInBytes % 2 ^ 32 := by
    rw [copyNumInWords, BitVec.toNat_ofNat, bytesToWords, BitVec.toNat_setWidth]
  unfold turns
  rw [words]
  refine turnsOf_iff ?_ ?_ (by decide)
  · cases config.wordSize <;> decide
  · cases config.ptrSize <;> cases config.wordSize <;> decide

/-- No more words than the count has, unless it is less than one. -/
theorem copyWords_le (config : PointerModel) {countWidth : IntSizes} (count : BitVec countWidth.bits)
    (oneWord : config.wordSize.sizeInBytes ≤ count.toNat) :
    turns (copyNumInWords config count) * config.wordSize.sizeInBytes ≤ count.toNat := by
  have words : (copyNumInWords config count).toNat =
      count.toNat % 2 ^ config.ptrSize.bits / config.wordSize.sizeInBytes % 2 ^ 32 := by
    rw [copyNumInWords, BitVec.toNat_ofNat, bytesToWords, BitVec.toNat_setWidth]
  unfold turns
  rw [words]
  generalize count.toNat = c at *
  revert oneWord
  cases config.ptrSize <;> cases config.wordSize <;> simp only [IntSizes.bits, IntSizes.sizeInBytes] <;> omega

end Counts

/-! ## Copies -/

section CopiesExactly
variable {config : PointerModel} {dst src : Place} {memory : ByteMemory}

/-- A forward copy of several words reads what it has written before. -/
def Overtakes (dst src : Place) (count : Nat) : Prop :=
  dst.space = src.space ∧ src.address < dst.address ∧ dst.address < src.address + count

instance (dst src : Place) (count : Nat) : Decidable (Overtakes dst src count) := by
  unfold Overtakes
  infer_instance

theorem copied_onto_itself {k : Nat} (small : k ≤ 2 ^ 32) (place : Place) :
    (copied config dst dst memory k).memory place = memory place := by
  induction k generalizing place with
  | zero => rfl
  | succ k ih =>
      rw [copied_succ (by omega), ih (by omega), ih (by omega)]
      split
      · rename_i inRange
        have inDst : InRange dst ((k + 1) * config.wordSize.sizeInBytes) place := by
          obtain ⟨space, above, below⟩ := inRange
          rw [add_address] at above below
          rw [Nat.succ_mul]
          exact ⟨space, by omega, by omega⟩
        rw [← inDst.eq_add]
      · rfl

/-- The source of a byte is not yet overwritten in the turn of its word. -/
theorem source_kept {n o : Nat} (small : n ≤ 2 ^ 32) (inside : o < n * config.wordSize.sizeInBytes)
    (apart : n = 1 ∨ ¬ Overtakes dst src (n * config.wordSize.sizeInBytes)) :
    (copied config dst src memory (o / config.wordSize.sizeInBytes)).memory (src.add o) = memory (src.add o) := by
  have positive := sizeInBytes_pos config.wordSize
  have turn : o / config.wordSize.sizeInBytes < n := Nat.div_lt_of_lt_mul (by rwa [Nat.mul_comm])
  have before : o / config.wordSize.sizeInBytes * config.wordSize.sizeInBytes ≤ o := Nat.div_mul_le_self _ _
  have written : o / config.wordSize.sizeInBytes * config.wordSize.sizeInBytes ≤ n * config.wordSize.sizeInBytes :=
    Nat.mul_le_mul_right _ turn.le
  apply copied_frame (by omega)
  intro overwritten
  obtain ⟨space, above, below⟩ := overwritten
  rw [add_address] at above below
  cases apart with
  | inl one =>
      have first : o / config.wordSize.sizeInBytes = 0 := Nat.lt_one_iff.mp (one ▸ turn)
      rw [first, Nat.zero_mul] at below
      omega
  | inr apart => exact apart ⟨space.symm, by omega, by omega⟩

/-- Exact copies come from whole words in the right number. -/
theorem copies_of_words {n count : Nat} (small : n ≤ 2 ^ 32) (total : n * config.wordSize.sizeInBytes = count)
    (apart : n = 1 ∨ ¬ Overtakes dst src count) : Copied memory dst src count (copied config dst src memory n) where
  copies := by
    intro o inside
    rw [copied_byte small (by omega)]
    exact source_kept small (by omega) (by rwa [total])
  frame := by
    intro place outside
    exact copied_frame small (by rwa [total])
  reads := by
    intro place read
    rw [mem_read small, total] at read
    exact read

/-- Memory with a mark at one place. -/
def marked (place : Place) : ByteMemory := fun other => if other = place then 1 else 0

theorem marked_self (place : Place) : marked place place = 1 := if_pos rfl

theorem marked_other {place other : Place} (different : other ≠ place) : marked place other = 0 := if_neg different

/-- A byte that several words have to pass on is lost where the destination overtakes the source. -/
theorem overtaken {n : Nat} (small : n ≤ 2 ^ 32) (several : n ≠ 1)
    (overtakes : Overtakes dst src (n * config.wordSize.sizeInBytes)) :
    ∃ memory, ¬ Copied memory dst src (n * config.wordSize.sizeInBytes) (copied config dst src memory n) := by
  have positive := sizeInBytes_pos config.wordSize
  obtain ⟨space, ahead, reached⟩ := overtakes
  -- the byte of the first word from which a byte of a later one is taken
  let distance := dst.address - src.address
  let late := max config.wordSize.sizeInBytes distance
  let early := late - distance
  have more : 2 * config.wordSize.sizeInBytes ≤ n * config.wordSize.sizeInBytes := by
    apply Nat.mul_le_mul_right
    by_contra few
    have none : n = 0 := by omega
    rw [none] at reached
    omega
  have lateInside : late < n * config.wordSize.sizeInBytes := by omega
  have earlyInside : early < config.wordSize.sizeInBytes := by omega
  have sameByte : src.add late = dst.add early := add_eq_add_iff.mpr ⟨space.symm, by omega⟩
  have turnPositive : 0 < late / config.wordSize.sizeInBytes := Nat.div_pos (le_max_left _ _) positive
  have turnSmall : late / config.wordSize.sizeInBytes < n := Nat.div_lt_of_lt_mul (by rwa [Nat.mul_comm])
  have firstWord : config.wordSize.sizeInBytes ≤ late / config.wordSize.sizeInBytes * config.wordSize.sizeInBytes :=
    Nat.le_mul_of_pos_left _ turnPositive
  refine ⟨marked (src.add early), ?_⟩
  intro copies
  have value := copies.copies late lateInside
  rw [copied_byte small lateInside, sameByte, copied_byte (by omega) (by omega), Nat.div_eq_of_lt earlyInside] at value
  have different : dst.add early ≠ src.add early := by
    rw [← sameByte]
    intro same
    have offsets := add_inj.mp same
    omega
  rw [marked_other different] at value
  exact absurd ((marked_self _).symm.trans value) (by decide)

theorem copiesExactly_def {countWidth : IntSizes} (count : BitVec countWidth.bits) :
    CopiesExactly config dst src count ↔ ∀ memory, Copied memory dst src count.toNat
      (copied config dst src memory (turns (copyNumInWords config count))) := by
  unfold CopiesExactly copyBytes
  exact forall_congr' fun memory => ends_iff

/-- A copy is exact when its count is a positive number of words that fits 32 bits, and the
destination does not lie behind the start of a source of several words; or when the two are one
place and the count is at least a word. -/
theorem copiesExactly_iff {countWidth : IntSizes} (count : BitVec countWidth.bits) :
    CopiesExactly config dst src count ↔
      (dst = src ∧ config.wordSize.sizeInBytes ≤ count.toNat) ∨
      ((0 < count.toNat ∧ config.wordSize.sizeInBytes ∣ count.toNat ∧
          count.toNat / config.wordSize.sizeInBytes < 2 ^ 32 ∧ count.toNat < 2 ^ config.ptrSize.bits) ∧
        (count.toNat = config.wordSize.sizeInBytes ∨ ¬ Overtakes dst src count.toNat)) := by
  have positive := sizeInBytes_pos config.wordSize
  have small := (turns_lt (copyNumInWords config count)).le
  have started : 0 < turns (copyNumInWords config count) := lt_of_lt_of_le Nat.one_pos (le_max_left _ _)
  have within := copyWords_le config count
  rw [copiesExactly_def, ← copyWords_iff]
  generalize turns (copyNumInWords config count) = n at *
  constructor
  · intro copies
    have reached : n * config.wordSize.sizeInBytes ≤ count.toNat := by
      by_contra beyond
      have last : src.add count.toNat ∈ (copied config dst src (marked src) n).read :=
        (mem_read small).mpr (inRange_add.mpr (by omega))
      have inside := (copies (marked src)).reads _ last
      exact absurd (inRange_add.mp inside) (lt_irrefl _)
    by_cases same : dst = src
    · have oneWord : config.wordSize.sizeInBytes ≤ n * config.wordSize.sizeInBytes := Nat.le_mul_of_pos_left _ started
      exact .inl ⟨same, by omega⟩
    · have total : n * config.wordSize.sizeInBytes = count.toNat := by
        by_contra short
        have value := (copies (marked (dst.add (n * config.wordSize.sizeInBytes)))).copies _ (lt_of_le_of_ne reached short)
        rw [copied_frame small (fun inside => lt_irrefl _ (inRange_add.mp inside)), marked_self, marked_other] at value
        · exact absurd value (by decide)
        · intro aliased
          apply same
          obtain ⟨space, address⟩ := add_eq_add_iff.mp aliased
          exact Place.ext space.symm (by omega)
      refine .inr ⟨total, ?_⟩
      by_contra bad
      obtain ⟨several, overtakes⟩ := not_or.mp bad
      rw [not_not, ← total] at overtakes
      have many : n ≠ 1 := by
        intro one
        rw [one, Nat.one_mul] at total
        exact several total.symm
      obtain ⟨memory, lost⟩ := overtaken small many overtakes
      rw [total] at lost
      exact lost (copies memory)
  · intro holds memory
    cases holds with
    | inl onto =>
        obtain ⟨rfl, oneWord⟩ := onto
        refine ⟨fun o _ => copied_onto_itself small _, fun place _ => copied_onto_itself small _, ?_⟩
        intro place read
        obtain ⟨space, above, below⟩ := (mem_read small).mp read
        have most := within oneWord
        exact ⟨space, above, by omega⟩
    | inr words =>
        obtain ⟨total, apart⟩ := words
        refine copies_of_words small total (apart.imp_left fun oneWord => ?_)
        rw [oneWord] at total
        exact Nat.eq_of_mul_eq_mul_right positive (by rw [total, Nat.one_mul])

end CopiesExactly

/-! ## Fills -/

section FillsExactly
variable {config : PointerModel} {dst : Place} {fillWidth : IntSizes} {value : BitVec fillWidth.bits}

/-- Memory after some turns of a fill. -/
def filled (dst : Place) (value : BitVec fillWidth.bits) (memory : ByteMemory) (k : Nat) : ByteMemory :=
  after (fillTurn dst value) memory k

theorem filled_eq {memory : ByteMemory} {k : Nat} (small : k ≤ 2 ^ 32) (place : Place) :
    filled dst value memory k place =
      if InRange dst (k * fillWidth.sizeInBytes) place then
        (bytesOf fillWidth value).getD ((place.address - dst.address) % fillWidth.sizeInBytes) 0
      else memory place := by
  have positive := sizeInBytes_pos fillWidth
  induction k with
  | zero =>
      have outside : ¬ InRange dst (0 * fillWidth.sizeInBytes) place := by
        intro inside
        obtain ⟨-, above, below⟩ := inside
        omega
      rw [if_neg outside]
      rfl
  | succ k ih =>
      have index : (BitVec.ofNat 32 k).toNat = k := by rw [BitVec.toNat_ofNat, Nat.mod_eq_of_lt (by omega)]
      change storeBytes _ _ _ place = _
      rw [index, storeBytes, length_bytesOf]
      by_cases word : InRange (dst.add (k * fillWidth.sizeInBytes)) fillWidth.sizeInBytes place
      · obtain ⟨space, above, below⟩ := word
        rw [add_space] at space
        rw [add_address] at above below
        have inside : InRange dst ((k + 1) * fillWidth.sizeInBytes) place := by
          rw [Nat.succ_mul]
          exact ⟨space, by omega, by omega⟩
        have offset : place.address - dst.address = (place.address - (dst.address + k * fillWidth.sizeInBytes)) +
            k * fillWidth.sizeInBytes := by omega
        rw [if_pos ⟨space, by rwa [add_address], by rwa [add_address]⟩, if_pos inside, add_address, offset,
          Nat.add_mul_mod_self_right, Nat.mod_eq_of_lt (by omega)]
      · have inside_iff : InRange dst ((k + 1) * fillWidth.sizeInBytes) place ↔
            InRange dst (k * fillWidth.sizeInBytes) place := by
          rw [Nat.succ_mul]
          constructor
          · intro inside
            obtain ⟨space, above, below⟩ := inside
            refine ⟨space, above, ?_⟩
            by_contra behind
            exact word ⟨space, by rw [add_address]; omega, by rw [add_address]; omega⟩
          · intro inside
            obtain ⟨space, above, below⟩ := inside
            exact ⟨space, above, by omega⟩
        have before := ih (by omega)
        rw [if_neg word]
        simp only [inside_iff]
        exact before

theorem fillsExactly_def (count : BitVec config.ptrSize.bits) :
    FillsExactly config dst value count ↔ ∀ memory, Filled memory dst (bytesOf fillWidth value) count.toNat
      (filled dst value memory (turns (fillNumInWords config count))) := by
  unfold FillsExactly fillBytes
  exact forall_congr' fun memory => ends_iff

/-- Cut off to 32 bits, a multiple of a number is not that number again. -/
theorem turns_ne_multiple {n d : Nat} (small : n < 2 ^ 32) (factor : d = 2 ∨ d = 4 ∨ d = 8) :
    n ≠ max 1 (n * d % 2 ^ 32) := by
  intro same
  have split := Nat.div_add_mod (n * d) (2 ^ 32)
  have divides : 2 ^ 32 ∣ (d - 1) * n := by
    refine ⟨n * d / 2 ^ 32, ?_⟩
    rcases factor with rfl | rfl | rfl <;> omega
  have none : n = 0 := by
    refine Nat.eq_zero_of_dvd_of_lt (Nat.Coprime.dvd_of_dvd_mul_left ?_ divides) small
    rcases factor with rfl | rfl | rfl <;> decide
  omega

/-- A width that is a multiple of the words writes too many. -/
theorem fillWords_wide {count word factor : Nat} (factors : factor = 2 ∨ factor = 4 ∨ factor = 8) (positive : 0 < word) :
    max 1 (count / word % 2 ^ 32) * (word * factor) ≠ count := by
  intro total
  have small : max 1 (count / word % 2 ^ 32) < 2 ^ 32 := max_lt (by decide) (Nat.mod_lt _ (by decide))
  have quotient : count / word = max 1 (count / word % 2 ^ 32) * factor := by
    apply Nat.div_eq_of_eq_mul_right positive
    rw [Nat.mul_left_comm]
    exact total.symm
  apply turns_ne_multiple small factors
  rw [← quotient]

/-- The elements written are exactly the count. -/
theorem elements_iff (fillWidth wordSize : IntSizes) (c : Nat) :
    max 1 (c / wordSize.sizeInBytes % 2 ^ 32) * fillWidth.sizeInBytes = c ↔
      (fillWidth = wordSize ∧ 0 < c ∧ wordSize.sizeInBytes ∣ c ∧ c / wordSize.sizeInBytes < 2 ^ 32) ∨
      (c = fillWidth.sizeInBytes ∧ c < wordSize.sizeInBytes) := by
  have wide : ∀ factor, (factor = 2 ∨ factor = 4 ∨ factor = 8) → fillWidth.sizeInBytes = wordSize.sizeInBytes * factor →
      (max 1 (c / wordSize.sizeInBytes % 2 ^ 32) * fillWidth.sizeInBytes = c ↔
      (fillWidth = wordSize ∧ 0 < c ∧ wordSize.sizeInBytes ∣ c ∧ c / wordSize.sizeInBytes < 2 ^ 32) ∨
      (c = fillWidth.sizeInBytes ∧ c < wordSize.sizeInBytes)) := by
    intro factor factors size
    have positive : 0 < wordSize.sizeInBytes := by cases wordSize <;> decide
    refine iff_of_false ?_ ?_
    · rw [size]
      exact fillWords_wide factors positive
    · rw [size]
      intro fits
      rcases fits with ⟨rfl, -⟩ | ⟨total, less⟩
      · rcases factors with rfl | rfl | rfl <;> omega
      · rcases factors with rfl | rfl | rfl <;> omega
  cases fillWidth with
  | intTy8 => cases wordSize <;> simp only [IntSizes.sizeInBytes, reduceCtorEq, false_and, true_and, false_or] <;> omega
  | intTy16 =>
      cases wordSize with
      | intTy8 => exact wide 2 (by decide) rfl
      | _ => simp only [IntSizes.sizeInBytes, reduceCtorEq, false_and, true_and, false_or]; omega
  | intTy32 =>
      cases wordSize with
      | intTy8 => exact wide 4 (by decide) rfl
      | intTy16 => exact wide 2 (by decide) rfl
      | _ => simp only [IntSizes.sizeInBytes, reduceCtorEq, false_and, true_and, false_or]; omega
  | intTy64 =>
      cases wordSize with
      | intTy8 => exact wide 8 (by decide) rfl
      | intTy16 => exact wide 4 (by decide) rfl
      | intTy32 => exact wide 2 (by decide) rfl
      | intTy64 => simp only [IntSizes.sizeInBytes, true_and]; omega

theorem fillWords_iff (count : BitVec config.ptrSize.bits) :
    turns (fillNumInWords config count) * fillWidth.sizeInBytes = count.toNat ↔
      (fillWidth = config.wordSize ∧ 0 < count.toNat ∧ config.wordSize.sizeInBytes ∣ count.toNat ∧
        count.toNat / config.wordSize.sizeInBytes < 2 ^ 32) ∨
      (count.toNat = fillWidth.sizeInBytes ∧ count.toNat < config.wordSize.sizeInBytes) := by
  have words : (fillNumInWords config count).toNat = count.toNat / config.wordSize.sizeInBytes % 2 ^ 32 := by
    rw [fillNumInWords, BitVec.toNat_ofNat, bytesToWords]
  unfold turns
  rw [words]
  exact elements_iff fillWidth config.wordSize count.toNat

/-- A fill is exact when the value is as wide as a word and the count a positive number of words
that fits 32 bits, or for a single value that is narrower than a word. -/
theorem fillsExactly_iff (count : BitVec config.ptrSize.bits) :
    FillsExactly config dst value count ↔
      (fillWidth = config.wordSize ∧ 0 < count.toNat ∧ config.wordSize.sizeInBytes ∣ count.toNat ∧
        count.toNat / config.wordSize.sizeInBytes < 2 ^ 32) ∨
      (count.toNat = fillWidth.sizeInBytes ∧ count.toNat < config.wordSize.sizeInBytes) := by
  have small := (turns_lt (fillNumInWords config count)).le
  rw [fillsExactly_def, ← fillWords_iff]
  generalize turns (fillNumInWords config count) = n at *
  constructor
  · intro fills
    rcases lt_trichotomy (n * fillWidth.sizeInBytes) count.toNat with short | total | long
    · -- the byte behind the elements keeps what it held
      let wanted := (bytesOf fillWidth value).getD (n * fillWidth.sizeInBytes % (bytesOf fillWidth value).length) 0
      have kept := (fills fun _ => wanted + 1).fills _ short
      rw [filled_eq small, if_neg (fun inside => lt_irrefl _ (inRange_add.mp inside))] at kept
      exact absurd kept (by simp [wanted])
    · exact total
    · -- the byte behind the count is overwritten
      let written := (bytesOf fillWidth value).getD (count.toNat % fillWidth.sizeInBytes) 0
      have kept := (fills fun _ => written + 1).frame (dst.add count.toNat)
        (fun inside => lt_irrefl _ (inRange_add.mp inside))
      rw [filled_eq small, if_pos (inRange_add.mpr long), add_address, Nat.add_sub_cancel_left] at kept
      exact absurd kept.symm (by simp [written])
  · intro total memory
    constructor
    · intro o inside
      rw [filled_eq small, total, if_pos (inRange_add.mpr inside), length_bytesOf, add_address, Nat.add_sub_cancel_left]
    · intro place outside
      rw [filled_eq small, total, if_neg outside]

end FillsExactly

/-! ## Both -/

/-- When the loops move exactly the bytes that they are to move. -/
theorem lowerMemcpy_iff (config : PointerModel) :
    (∀ (countWidth : IntSizes) (dst src : Place) (count : BitVec countWidth.bits),
      CopiesExactly config dst src count ↔
        (dst = src ∧ config.wordSize.sizeInBytes ≤ count.toNat) ∨
        ((0 < count.toNat ∧ config.wordSize.sizeInBytes ∣ count.toNat ∧
            count.toNat / config.wordSize.sizeInBytes < 2 ^ 32 ∧ count.toNat < 2 ^ config.ptrSize.bits) ∧
          (count.toNat = config.wordSize.sizeInBytes ∨ ¬ Overtakes dst src count.toNat))) ∧
    (∀ (fillWidth : IntSizes) (dst : Place) (value : BitVec fillWidth.bits) (count : BitVec config.ptrSize.bits),
      FillsExactly config dst value count ↔
        (fillWidth = config.wordSize ∧ 0 < count.toNat ∧ config.wordSize.sizeInBytes ∣ count.toNat ∧
          count.toNat / config.wordSize.sizeInBytes < 2 ^ 32) ∨
        (count.toNat = fillWidth.sizeInBytes ∧ count.toNat < config.wordSize.sizeInBytes)) := by
  constructor
  · intro countWidth dst src count
    exact copiesExactly_iff count
  · intro fillWidth dst value count
    exact fillsExactly_iff count

/-- A copy of no bytes copies a word, and one of six bytes with words of four copies four; bytes
fill a quarter of the count. -/
theorem wrongCounts :
    let config : PointerModel := { ptrSize := .intTy64, wordSize := .intTy32 }
    ¬ CopiesExactly config ⟨.global, 64⟩ ⟨.global, 0⟩ (0 : BitVec IntSizes.intTy64.bits) ∧
      ¬ CopiesExactly config ⟨.global, 64⟩ ⟨.global, 0⟩ (6 : BitVec IntSizes.intTy64.bits) ∧
      ¬ FillsExactly config ⟨.global, 64⟩ (7 : BitVec IntSizes.intTy8.bits) (16 : BitVec IntSizes.intTy64.bits) := by
  refine ⟨?_, ?_, ?_⟩
  · rw [copiesExactly_iff]
    decide
  · rw [copiesExactly_iff]
    decide
  · rw [fillsExactly_iff]
    decide

end Shady.Memcpy
