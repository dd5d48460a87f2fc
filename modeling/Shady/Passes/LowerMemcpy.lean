import Shady.Ir.IrTypes

/-!
# Copies and fills

Model of what the code of `src/shady/passes/lower_memcpy.c` does to memory: a loop over words
that tests its bound after each turn. A pointer is the place it leads to, also where it is
generic, and memory is made of bytes.
-/

set_option autoImplicit false

namespace Shady.Memcpy

abbrev Byte := BitVec 8

structure Place where
  space : AddressSpace
  address : Nat
  deriving DecidableEq

theorem Place.ext {first second : Place} (space : first.space = second.space)
    (address : first.address = second.address) : first = second := by
  cases first
  cases second
  cases space
  cases address
  rfl

abbrev ByteMemory := Place → Byte

def Place.add (place : Place) (bytes : Nat) : Place := { place with address := place.address + bytes }

/-- The place is one of the bytes from `start` on. -/
def InRange (start : Place) (bytes : Nat) (place : Place) : Prop :=
  place.space = start.space ∧ start.address ≤ place.address ∧ place.address < start.address + bytes

instance (start : Place) (bytes : Nat) (place : Place) : Decidable (InRange start bytes place) := by
  unfold InRange
  infer_instance

/-- The places that a load of some bytes reads. -/
def places (start : Place) (bytes : Nat) : List Place := (List.range bytes).map start.add

def loadBytes (memory : ByteMemory) (start : Place) (bytes : Nat) : List Byte := (places start bytes).map memory

def storeBytes (memory : ByteMemory) (start : Place) (bytes : List Byte) : ByteMemory := fun place =>
  if InRange start bytes.length place then bytes.getD (place.address - start.address) 0 else memory place

/-- The bytes of an integer. -/
def bytesOf (width : IntSizes) (value : BitVec width.bits) : List Byte :=
  (List.range width.sizeInBytes).map fun i => (value >>> (8 * i)).setWidth 8

/-! ## The loop -/

/-- The loop of `shd_bld_begin_loop_helper`, as both cases fill it: the index counts the turns, and
the bound is tested behind the body. -/
def countLoop {State : Type} (turn : BitVec 32 → State → State) (limit : BitVec 32) :
    Nat → BitVec 32 → State → Option State
  | 0, _, _ => none
  | fuel + 1, index, s =>
      let s := turn index s
      let nextIndex := index + 1
      if nextIndex.ult limit then countLoop turn limit fuel nextIndex s else some s

section Pass
variable (config : PointerModel)

/-- `shd_bytes_to_words`, of a count that is an unsigned integer of the width of pointers -/
def bytesToWords (bytes : Nat) : Nat := bytes / config.wordSize.sizeInBytes

/-- `num_in_words` of a copy: the count is extended or cut off to the width of pointers, and the
words to 32 bits. -/
def copyNumInWords {countWidth : IntSizes} (count : BitVec countWidth.bits) : BitVec 32 :=
  let numInBytes := count.setWidth config.ptrSize.bits
  BitVec.ofNat 32 (bytesToWords config numInBytes.toNat)

/-- Memory, and the places that were read. -/
structure CopyState where
  memory : ByteMemory
  read : List Place

/-- One turn of the loop of a copy. -/
def copyTurn (dst src : Place) (index : BitVec 32) (s : CopyState) : CopyState :=
  let size := config.wordSize.sizeInBytes
  let start := src.add (index.toNat * size)
  let loadedWord := loadBytes s.memory start size
  { memory := storeBytes s.memory (dst.add (index.toNat * size)) loadedWord
    read := s.read ++ places start size }

/-- `process` on `CopyBytes` -/
def copyBytes {countWidth : IntSizes} (dst src : Place) (count : BitVec countWidth.bits) (fuel : Nat)
    (memory : ByteMemory) : Option CopyState :=
  countLoop (copyTurn config dst src) (copyNumInWords config count) fuel 0 ⟨memory, []⟩

/-- `num_in_words` of a fill, where the division only takes a count of the width of pointers. -/
def fillNumInWords (count : BitVec config.ptrSize.bits) : BitVec 32 :=
  BitVec.ofNat 32 (bytesToWords config count.toNat)

/-- One turn of the loop of a fill. The elements have the type of the value. -/
def fillTurn {fillWidth : IntSizes} (dst : Place) (value : BitVec fillWidth.bits) (index : BitVec 32)
    (memory : ByteMemory) : ByteMemory :=
  storeBytes memory (dst.add (index.toNat * fillWidth.sizeInBytes)) (bytesOf fillWidth value)

/-- `process` on `FillBytes` -/
def fillBytes {fillWidth : IntSizes} (dst : Place) (value : BitVec fillWidth.bits) (count : BitVec config.ptrSize.bits)
    (fuel : Nat) (memory : ByteMemory) : Option ByteMemory :=
  countLoop (fillTurn dst value) (fillNumInWords config count) fuel 0 memory

/-! ## What is to be done -/

/-- The first bytes of the destination are those of the source, and nothing else is changed or
read. -/
structure Copied (memory : ByteMemory) (dst src : Place) (count : Nat) (final : CopyState) : Prop where
  copies : ∀ i < count, final.memory (dst.add i) = memory (src.add i)
  frame : ∀ place, ¬ InRange dst count place → final.memory place = memory place
  reads : ∀ place ∈ final.read, InRange src count place

/-- The first bytes of the destination repeat the value, and nothing else is changed. -/
structure Filled (memory : ByteMemory) (dst : Place) (value : List Byte) (count : Nat) (final : ByteMemory) : Prop where
  fills : ∀ i < count, final (dst.add i) = value.getD (i % value.length) 0
  frame : ∀ place, ¬ InRange dst count place → final place = memory place

/-- From any memory, the loop of the copy ends with the bytes copied. -/
def CopiesExactly {countWidth : IntSizes} (dst src : Place) (count : BitVec countWidth.bits) : Prop :=
  ∀ memory, ∃ fuel final, copyBytes config dst src count fuel memory = some final ∧
    Copied memory dst src count.toNat final

/-- From any memory, the loop of the fill ends with the bytes filled. -/
def FillsExactly {fillWidth : IntSizes} (dst : Place) (value : BitVec fillWidth.bits)
    (count : BitVec config.ptrSize.bits) : Prop :=
  ∀ memory, ∃ fuel final, fillBytes config dst value count fuel memory = some final ∧
    Filled memory dst (bytesOf fillWidth value) count.toNat final

end Pass

/-! ## How the loop ends -/

section Loop
variable {State : Type} {turn : BitVec 32 → State → State} {limit : BitVec 32} {s : State}

/-- The state after a number of turns. -/
def after (turn : BitVec 32 → State → State) (s : State) : Nat → State
  | 0 => s
  | k + 1 => turn (BitVec.ofNat 32 k) (after turn s k)

/-- The body runs once before the bound is looked at. -/
def turns (limit : BitVec 32) : Nat := max 1 limit.toNat

theorem turns_lt (limit : BitVec 32) : turns limit < 2 ^ 32 :=
  max_lt (by decide) limit.isLt

/-- One turn, and whether there is another one. -/
theorem countLoop_turn {fuel k : Nat} (before : k < turns limit) :
    countLoop turn limit (fuel + 1) (BitVec.ofNat 32 k) (after turn s k) =
      if k + 1 < turns limit then countLoop turn limit fuel (BitVec.ofNat 32 (k + 1)) (after turn s (k + 1))
      else some (after turn s (turns limit)) := by
  have small := turns_lt limit
  have next : BitVec.ofNat 32 k + 1 = BitVec.ofNat 32 (k + 1) := by
    rw [BitVec.ofNat_add]
    rfl
  have bound : (BitVec.ofNat 32 (k + 1)).ult limit = decide (k + 1 < limit.toNat) := by
    rw [BitVec.ult, BitVec.toNat_ofNat, Nat.mod_eq_of_lt (by omega)]
  have tests : k + 1 < turns limit ↔ k + 1 < limit.toNat := by
    unfold turns
    omega
  rw [countLoop, next, bound]
  by_cases continues : k + 1 < limit.toNat
  · rw [decide_eq_true continues, if_pos rfl, if_pos (tests.mpr continues)]
    rfl
  · have last : turns limit = k + 1 := by
      unfold turns at before ⊢
      omega
    rw [decide_eq_false continues, if_neg (fun more => continues (tests.mp more)), last]
    rfl

theorem countLoop_eq {fuel k : Nat} (before : k < turns limit) (enough : turns limit - k ≤ fuel) :
    countLoop turn limit fuel (BitVec.ofNat 32 k) (after turn s k) = some (after turn s (turns limit)) := by
  induction fuel generalizing k with
  | zero => omega
  | succ fuel ih =>
      rw [countLoop_turn before]
      split
      · rename_i continues
        exact ih continues (by omega)
      · rfl

theorem countLoop_some {fuel k : Nat} {final : State} (before : k < turns limit)
    (ended : countLoop turn limit fuel (BitVec.ofNat 32 k) (after turn s k) = some final) :
    final = after turn s (turns limit) := by
  induction fuel generalizing k with
  | zero => cases ended
  | succ fuel ih =>
      rw [countLoop_turn before] at ended
      split at ended
      · rename_i continues
        exact ih continues ended
      · exact (Option.some.inj ended).symm

/-- The loop ends, after its turns. -/
theorem ends_iff {holds : State → Prop} :
    (∃ fuel final, countLoop turn limit fuel 0 s = some final ∧ holds final) ↔ holds (after turn s (turns limit)) := by
  have before : 0 < turns limit := lt_of_lt_of_le Nat.one_pos (le_max_left _ _)
  constructor
  · intro ends
    obtain ⟨fuel, final, ended, final_holds⟩ := ends
    rw [← countLoop_some before ended]
    exact final_holds
  · intro final_holds
    exact ⟨turns limit, _, countLoop_eq before (Nat.sub_le _ _), final_holds⟩

end Loop

end Shady.Memcpy
