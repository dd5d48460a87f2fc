import Shady.Passes.PhysicalPtrsWords

/-!
# When serialisation round-trips and frames

A narrow scalar is stored by overwriting its whole word, and a boolean is stored the other
way round in the word whose index is its address. So a value comes back, and the memory
around it stays, exactly where a type has no booleans, where the elements of its rows take
whole words, and where the type itself takes whole words at the beginning of a word.
-/

set_option autoImplicit false

namespace Shady

open WordArray (Slot InSlots storeAll loadAll)

section
variable (config : PointerModel)

/-- What is stored is loaded again. -/
def RoundTrips (type : DataType) (address : Nat) : Prop :=
  ∀ value words, HasType config type value →
    ∃ stored, genSerialisation config type address value words = some stored ∧
      genDeserialisation config stored type address = some value

/-- A store changes no byte outside of `size` bytes from the address on. -/
def Frames (type : DataType) (address size : Nat) : Prop :=
  ∀ value words stored, HasType config type value →
    genSerialisation config type address value words = some stored →
      ∀ byte, byte < address ∨ address + size ≤ byte → byteAt stored byte = byteAt words byte

structure Serialisable (type : DataType) (address size : Nat) : Prop where
  plain : Plain type
  rows : WordRows config type
  /-- The type takes nothing, or whole words. -/
  whole : Weightless type ∨
    config.wordSize.sizeInBytes ∣ address ∧ config.wordSize.sizeInBytes ∣ size

end

section Exact
variable {config : PointerModel}

/-! ## Booleans and named types -/

mutual

/-- Zeros, and booleans that are stored as zeros. -/
def zeroValue : DataType → StoredValue
  | .bool => .bool true
  | .record members => .composite (zeroValues members)
  | .typeDeclRef body => zeroValue body
  | .arr elementType size =>
      .composite (List.replicate ((size.map literalCount).getD 0) (zeroValue elementType))
  | .pack elementType width => .composite (List.replicate width.toNat (zeroValue elementType))
  | .int _ _ => .scalar 0
  | .float _ => .scalar 0
  | .ptr _ => .scalar 0
  | .qualified _ _ => .scalar 0
  | .fn => .scalar 0
  | .other => .scalar 0

def zeroValues : List DataType → List StoredValue
  | [] => []
  | member :: members => zeroValue member :: zeroValues members

end

mutual

theorem zeroValue_typed : ∀ (type : DataType), Emulated type → HasType config type (zeroValue type)
  | .bool, _ => trivial
  | .int _ _, _ => Nat.two_pow_pos _
  | .float _, _ => Nat.two_pow_pos _
  | .ptr _, _ => Nat.two_pow_pos _
  | .record members, emulated => zeroValues_typed members emulated
  | .typeDeclRef body, emulated => zeroValue_typed body emulated
  | .arr elementType (some size), emulated => by
      refine ⟨List.length_replicate, fun v member => ?_⟩
      rw [List.eq_of_mem_replicate member]
      exact zeroValue_typed elementType emulated.2
  | .pack elementType width, emulated => by
      refine ⟨List.length_replicate, fun v member => ?_⟩
      rw [List.eq_of_mem_replicate member]
      exact zeroValue_typed elementType emulated

theorem zeroValues_typed : ∀ (members : List DataType), AllEmulated members →
    HaveTypes config members (zeroValues members)
  | [], _ => trivial
  | member :: members, emulated =>
      ⟨zeroValue_typed member emulated.1, zeroValues_typed members emulated.2⟩

end

theorem storeTurns_zero {width : IntSizes} (turns offset shift : Nat) :
    storeTurns config width 0 turns offset shift (fun _ => 0) = fun _ => 0 := by
  induction turns generalizing offset shift with
  | zero => rfl
  | succ turns ih =>
      have unchanged : Function.update (fun _ => 0 : WordArray config) offset
          (BitVec.ofNat config.wordSize.bits (0 >>> shift)) = fun _ => 0 := by
        rw [Nat.zero_shiftRight]
        exact Function.update_eq_self offset _
      rw [storeTurns, unchanged, ih]

theorem serialiseComponents_zero
    {store : Nat → StoredValue → WordArray config → Option (WordArray config)}
    {stride : Option TypeMemLayout} {component : StoredValue}
    (each : ∀ address stored, store address component (fun _ => 0) = some stored →
      stored = fun _ => 0) (count address : Nat) (stored : WordArray config)
    (ran : serialiseComponents config store stride (List.replicate count component) address
      (fun _ => 0) = some stored) : stored = fun _ => 0 := by
  induction count generalizing address with
  | zero => exact (Option.some.inj ran).symm
  | succ count ih =>
      simp only [List.replicate_succ, serialiseComponents, Option.bind_eq_bind,
        Option.bind_eq_some_iff] at ran
      obtain ⟨next, first, layout, -, rest⟩ := ran
      rw [each address next first] at rest
      exact ih _ rest

mutual

/-- Storing the zero value leaves memory of zeros as it is. -/
theorem genSerialisation_zero : ∀ (type : DataType) (address : Nat) (stored : WordArray config),
    genSerialisation config type address (zeroValue type) (fun _ => 0) = some stored →
      stored = fun _ => 0
  | .bool, address, stored, ran => by
      rw [zeroValue, genSerialisation] at ran
      rw [← Option.some.inj ran]
      exact Function.update_eq_self address _
  | .int _ _, _, stored, ran => by
      rw [zeroValue, genSerialisation] at ran
      rw [← Option.some.inj ran]
      exact storeTurns_zero ..
  | .float _, _, stored, ran => by
      rw [zeroValue, genSerialisation] at ran
      rw [← Option.some.inj ran]
      exact storeTurns_zero ..
  | .ptr addressSpace, _, stored, ran => by
      cases addressSpace with
      | global =>
          rw [zeroValue, genSerialisation] at ran
          rw [← Option.some.inj ran]
          exact storeTurns_zero ..
      | _ => simp [genSerialisation] at ran
  | .record members, address, stored, ran => by
      rw [zeroValue, genSerialisation] at ran
      exact serialiseMembers_zero members members 0 address stored ran
  | .typeDeclRef body, address, stored, ran => by
      rw [zeroValue, genSerialisation] at ran
      exact genSerialisation_zero body address stored ran
  | .arr elementType (some size), address, stored, ran => by
      rw [zeroValue, genSerialisation] at ran
      rw [if_pos (by rw [List.length_replicate]; rfl)] at ran
      exact serialiseComponents_zero (genSerialisation_zero elementType) _ address stored ran
  | .arr _ none, _, _, ran => by simp [genSerialisation] at ran
  | .pack elementType width, address, stored, ran => by
      rw [zeroValue, genSerialisation, if_pos List.length_replicate] at ran
      exact serialiseComponents_zero (genSerialisation_zero elementType) _ address stored ran
  | .qualified _ _, _, _, ran => by simp [genSerialisation] at ran
  | .fn, _, _, ran => by simp [genSerialisation] at ran
  | .other, _, _, ran => by simp [genSerialisation] at ran

theorem serialiseMembers_zero (record : List DataType) : ∀ (members : List DataType)
    (i address : Nat) (stored : WordArray config),
    serialiseMembers config record members i address (zeroValues members) (fun _ => 0) =
      some stored → stored = fun _ => 0
  | [], _, _, stored, ran => (Option.some.inj ran).symm
  | member :: members, i, address, stored, ran => by
      simp only [zeroValues, serialiseMembers, Option.bind_eq_bind, Option.bind_eq_some_iff] at ran
      obtain ⟨fieldOffset, -, next, first, rest⟩ := ran
      rw [genSerialisation_zero member _ next first] at rest
      exact serialiseMembers_zero record members (i + 1) address stored rest

end

theorem deserialiseComponents_zero {load : Nat → Option StoredValue} {stride : Option TypeMemLayout}
    {component : StoredValue} {count address : Nat}
    (ran : deserialiseComponents config load stride count address =
      some (List.replicate count component)) : count = 0 ∨ load address = some component := by
  cases count with
  | zero => exact Or.inl rfl
  | succ count =>
      simp only [List.replicate_succ, deserialiseComponents, Option.bind_eq_bind,
        Option.bind_eq_some_iff, Option.some.injEq] at ran
      obtain ⟨first, loaded, layout, -, components, -, whole⟩ := ran
      rw [List.cons.injEq] at whole
      exact Or.inr (whole.1 ▸ loaded)

mutual

/-- Memory of zeros holds the zero value only where there is no boolean to be false. -/
theorem plain_of_genDeserialisation_zero : ∀ (type : DataType) (address : Nat),
    genDeserialisation config (fun _ => 0) type address = some (zeroValue type) → Plain type
  | .bool, _, ran => by
      have differ := StoredValue.bool.inj (Option.some.inj ran)
      simp at differ
  | .int _ _, _, _ => trivial
  | .float _, _, _ => trivial
  | .ptr _, _, _ => trivial
  | .record members, address, ran => by
      simp only [genDeserialisation, zeroValue, Option.bind_eq_bind, Option.bind_eq_some_iff,
        Option.some.injEq, StoredValue.composite.injEq] at ran
      obtain ⟨components, loaded, rfl⟩ := ran
      exact allPlain_of_deserialiseMembers_zero members members 0 address loaded
  | .typeDeclRef body, address, ran => by
      cases body with
      | record members =>
          simp only [genDeserialisation, zeroValue, Option.bind_eq_bind, Option.bind_eq_some_iff,
            Option.some.injEq, StoredValue.composite.injEq] at ran
          obtain ⟨components, loaded, rfl⟩ := ran
          exact ⟨rfl, allPlain_of_deserialiseMembers_zero members members 0 address loaded⟩
      | _ => simp [genDeserialisation] at ran
  | .arr elementType (some size), address, ran => by
      simp only [genDeserialisation, zeroValue, Option.bind_eq_bind, Option.bind_eq_some_iff,
        Option.some.injEq, StoredValue.composite.injEq] at ran
      obtain ⟨components, loaded, rfl⟩ := ran
      exact (deserialiseComponents_zero loaded).imp id
        (plain_of_genDeserialisation_zero elementType address)
  | .arr _ none, _, _ => Or.inl rfl
  | .pack elementType width, address, ran => by
      simp only [genDeserialisation, zeroValue, Option.bind_eq_bind, Option.bind_eq_some_iff,
        Option.some.injEq, StoredValue.composite.injEq] at ran
      obtain ⟨components, loaded, rfl⟩ := ran
      exact (deserialiseComponents_zero loaded).imp id
        (plain_of_genDeserialisation_zero elementType address)
  | .qualified _ _, _, ran => by simp [genDeserialisation] at ran
  | .fn, _, _ => trivial
  | .other, _, _ => trivial

theorem allPlain_of_deserialiseMembers_zero (record : List DataType) :
    ∀ (members : List DataType) (i address : Nat),
    deserialiseMembers config (fun _ => 0) record members i address =
      some (zeroValues members) → AllPlain members
  | [], _, _, _ => trivial
  | member :: members, i, address, ran => by
      simp only [deserialiseMembers, zeroValues, Option.bind_eq_bind, Option.bind_eq_some_iff,
        Option.some.injEq, List.cons.injEq] at ran
      obtain ⟨fieldOffset, -, component, loaded, components, rest, rfl, rfl⟩ := ran
      exact ⟨plain_of_genDeserialisation_zero member _ loaded,
        allPlain_of_deserialiseMembers_zero record members (i + 1) address rest⟩

end

theorem RoundTrips.plain {type : DataType} {address : Nat} (emulated : Emulated type)
    (round : RoundTrips config type address) : Plain type := by
  obtain ⟨stored, ran, loaded⟩ := round (zeroValue type) (fun _ => 0) (zeroValue_typed type emulated)
  rw [genSerialisation_zero type address stored ran] at loaded
  exact plain_of_genDeserialisation_zero type address loaded

/-! ## Bytes -/

theorem byteAt_congr {words words' : WordArray config} {byte : Nat}
    (same : words (byte / config.wordSize.sizeInBytes) =
      words' (byte / config.wordSize.sizeInBytes)) : byteAt words byte = byteAt words' byte := by
  rw [byteAt, byteAt, same]

theorem byteAt_zero {words : WordArray config} {byte : Nat}
    (zero : words (byte / config.wordSize.sizeInBytes) = 0) : byteAt words byte = 0 := by
  rw [byteAt, zero]
  simp

theorem byteAt_ones (byte : Nat) :
    byteAt (fun _ => BitVec.allOnes _ : WordArray config) byte ≠ 0 := by
  intro zero
  have inside := Nat.mod_lt byte config.wordSize.sizeInBytes_pos
  have low : 8 * (byte % config.wordSize.sizeInBytes) < config.wordSize.bits := by
    rw [IntSizes.bits]
    omega
  have bit : (byteAt (fun _ => BitVec.allOnes _ : WordArray config) byte).testBit 0 = true := by
    rw [byteAt, BitVec.toNat_allOnes, Nat.testBit_mod_two_pow, Nat.testBit_div_two_pow,
      Nat.zero_add, Nat.testBit_two_pow_sub_one]
    simp [low]
  rw [zero] at bit
  simp at bit

/-- The words of every slot lie in `size` bytes from the address on. -/
def Contained (config : PointerModel) (type : DataType) (address size : Nat) : Prop :=
  ∀ slot ∈ slots config type address, ∀ index, slot.Holds index →
    address ≤ index * config.wordSize.sizeInBytes ∧
      (index + 1) * config.wordSize.sizeInBytes ≤ address + size

theorem Frames.contained {type : DataType} {address : Nat} (emulated : Emulated type)
    (plain : Plain type) (fits : Fits config type)
    (inRange : address + (extent config type).size ≤ 2 ^ config.ptrSize.bits)
    (below : address < 2 ^ config.ptrSize.bits)
    (frames : Frames config type address (extent config type).size) :
    Contained config type address (extent config type).size := by
  intro slot listed index held
  obtain ⟨value, typed, leaves⟩ := exists_leaves type address _ emulated
    (WordArray.inSlots_zeros (slots config type address))
  have ran := genSerialisation_eq type address value (fun _ => BitVec.allOnes _) emulated plain
    fits inRange typed
  rw [toPtr_eq below, leaves] at ran
  -- zeros over all ones change every byte of the word
  have changed : ∀ byte, byte / config.wordSize.sizeInBytes = index →
      address ≤ byte ∧ byte < address + (extent config type).size := by
    intro byte quotient
    by_contra outside
    have same := frames value _ _ typed ran byte (by omega)
    rw [byteAt_zero] at same
    · exact byteAt_ones byte same.symm
    · rw [quotient]
      exact WordArray.storeAll_zeros (Or.inr ⟨slot, listed, held⟩)
  have positive := config.wordSize.sizeInBytes_pos
  have first := changed (index * config.wordSize.sizeInBytes) (Nat.mul_div_cancel _ positive)
  have last := changed (index * config.wordSize.sizeInBytes + (config.wordSize.sizeInBytes - 1))
    (by rw [Nat.mul_comm, Nat.mul_add_div positive, Nat.div_eq_of_lt (by omega), Nat.add_zero])
  rw [Nat.succ_mul]
  omega

theorem Contained.frames {type : DataType} {address : Nat} (emulated : Emulated type)
    (plain : Plain type) (fits : Fits config type)
    (inRange : address + (extent config type).size ≤ 2 ^ config.ptrSize.bits)
    (below : address < 2 ^ config.ptrSize.bits)
    (contained : Contained config type address (extent config type).size) :
    Frames config type address (extent config type).size := by
  intro value words stored typed ran byte outside
  have written := genSerialisation_eq type address value words emulated plain fits inRange typed
  rw [toPtr_eq below, ran, Option.some.injEq] at written
  rw [written]
  apply byteAt_congr
  apply WordArray.storeAll_outside
  intro slot listed held
  have inside := contained slot listed _ held
  have lower := Nat.div_mul_le_self byte config.wordSize.sizeInBytes
  have upper := Nat.lt_div_mul_add (a := byte) config.wordSize.sizeInBytes_pos
  rw [Nat.succ_mul] at inside
  omega

/-! ## The exact condition -/

theorem roundTrips_iff_disjoint {type : DataType} {address : Nat} (emulated : Emulated type)
    (plain : Plain type) (fits : Fits config type)
    (inRange : address + (extent config type).size ≤ 2 ^ config.ptrSize.bits)
    (below : address < 2 ^ config.ptrSize.bits) :
    RoundTrips config type address ↔ (slots config type address).Pairwise Slot.Disjoint := by
  have stores := fun value words =>
    genSerialisation_eq type address value words emulated plain fits inRange
  have loads := fun words =>
    genDeserialisation_eq words type address emulated plain fits inRange
  rw [toPtr_eq below] at stores loads
  constructor
  · intro round
    have positive : 0 < config.wordSize.bits :=
      Nat.mul_pos config.wordSize.sizeInBytes_pos (by decide)
    apply WordArray.disjoint_of_loadAll_storeAll positive fun _ => 0
    intro values fitting
    obtain ⟨value, typed, rfl⟩ := exists_leaves type address values emulated fitting
    obtain ⟨stored, ran, loaded⟩ := round value (fun _ => 0) typed
    obtain ⟨value', loaded', -, leaves⟩ := loads stored
    rw [stores value _ typed, Option.some.injEq] at ran
    rw [loaded, Option.some.injEq] at loaded'
    rw [ran, ← leaves, loaded']
  · intro disjoint value words typed
    obtain ⟨value', loaded, typed', leaves⟩ :=
      loads (storeAll (slots config type address) value.leaves words)
    rw [WordArray.loadAll_storeAll disjoint (inSlots_leaves type value address typed)] at leaves
    exact ⟨_, stores value words typed, leaves_inj type value' value plain typed' typed leaves ▸ loaded⟩

theorem contained_whole {type : DataType} {address : Nat} (emulated : Emulated type)
    (plain : Plain type) (heavy : ¬ Weightless type)
    (contained : Contained config type address (extent config type).size) :
    config.wordSize.sizeInBytes ∣ address := by
  obtain ⟨slot, listed, held⟩ :
      ∃ slot ∈ slots config type address, slot.Holds (address / config.wordSize.sizeInBytes) :=
    exists_holds_first type emulated plain heavy address
  have first := (contained slot listed _ held).1
  have lower := Nat.div_mul_le_self address config.wordSize.sizeInBytes
  exact ⟨address / config.wordSize.sizeInBytes, by rw [Nat.mul_comm]; omega⟩

/-- Stored values come back and the bytes around them stay exactly for a type without
booleans whose rows and whole are words. -/
theorem serialisation_iff_serialisable {type : DataType} {layout : TypeMemLayout} {address : Nat}
    (emulated : Emulated type) (fits : Fits config type)
    (found : getMemLayout config type = some layout)
    (inRange : address + layout.sizeInBytes ≤ 2 ^ config.ptrSize.bits)
    (below : address < 2 ^ config.ptrSize.bits) :
    RoundTrips config type address ∧ Frames config type address layout.sizeInBytes ↔
      Serialisable config type address layout.sizeInBytes := by
  rw [getMemLayout_eq config type layout fits found, TypeMemLayout.of] at inRange ⊢
  constructor
  · intro both
    have plain := both.1.plain emulated
    have disjoint := (roundTrips_iff_disjoint emulated plain fits inRange below).mp both.1
    have contained := both.2.contained emulated plain fits inRange below
    by_cases weightless : Weightless type
    · exact ⟨plain, wordRows_of_weightless type weightless, Or.inl weightless⟩
    · have aligned := contained_whole emulated plain weightless contained
      have rows := wordRows_of_disjoint type address aligned disjoint
      refine ⟨plain, rows, Or.inr ⟨aligned, ?_⟩⟩
      by_contra ragged
      obtain ⟨narrow, scalar⟩ := ragged_narrow type rows ragged
      obtain ⟨slot, listed, held⟩ := scalar address
      have last := (contained slot listed _ held).2
      rw [Nat.succ_mul, Nat.div_mul_cancel aligned] at last
      omega
  · intro condition
    have contained : Contained config type address (extent config type).size := by
      intro slot listed index held
      cases condition.whole with
      | inl weightless =>
          rw [slots_nil_of_weightless type address weightless] at listed
          simp at listed
      | inr whole =>
          have within := slots_within type address slot listed
          refine ⟨le_of_within whole.1 within held, ?_⟩
          obtain ⟨k, multiple⟩ := Nat.dvd_add whole.1 whole.2
          have last := (within index held).2
          rw [multiple, Nat.mul_comm index] at last
          rw [multiple, Nat.mul_comm (index + 1)]
          exact Nat.mul_le_mul_left _ (Nat.lt_of_mul_lt_mul_left last)
    refine ⟨?_, contained.frames emulated condition.plain fits inRange below⟩
    rw [roundTrips_iff_disjoint emulated condition.plain fits inRange below]
    cases condition.whole with
    | inl weightless =>
        rw [slots_nil_of_weightless type address weightless]
        exact List.Pairwise.nil
    | inr whole => exact slots_disjoint type address condition.rows whole.1

/-- A byte and a long integer in a record, with words of 32 bits. -/
theorem paddedRecord_serialises :
    RoundTrips ⟨.intTy64, .intTy32⟩ (.record [.int .intTy8 false, .int .intTy64 true]) 16 ∧
      Frames ⟨.intTy64, .intTy32⟩ (.record [.int .intTy8 false, .int .intTy64 true]) 16 16 := by
  have emulated : Emulated (.record [.int .intTy8 false, .int .intTy64 true]) :=
    ⟨trivial, trivial, trivial⟩
  have fits : Fits ⟨.intTy64, .intTy32⟩ (.record [.int .intTy8 false, .int .intTy64 true]) :=
    ⟨⟨trivial, trivial, trivial⟩, by decide⟩
  have found : getMemLayout ⟨.intTy64, .intTy32⟩
      (.record [.int .intTy8 false, .int .intTy64 true]) = some ⟨16, 8⟩ := by decide
  apply (serialisation_iff_serialisable emulated fits found (by decide) (by decide)).mpr
  exact ⟨⟨trivial, trivial, trivial⟩, ⟨trivial, trivial, trivial⟩, Or.inr ⟨by decide, by decide⟩⟩

/-- A true boolean is stored as zero, and loaded as false. -/
theorem bool_breaks_serialisation : ¬ ∀ (config : PointerModel) (type : DataType)
    (layout : TypeMemLayout) (address : Nat), Emulated type → Fits config type →
    getMemLayout config type = some layout →
    address + layout.sizeInBytes ≤ 2 ^ config.ptrSize.bits → address < 2 ^ config.ptrSize.bits →
      RoundTrips config type address ∧ Frames config type address layout.sizeInBytes := by
  intro always
  have both := always ⟨.intTy64, .intTy32⟩ .bool ⟨4, 4⟩ 8 trivial trivial rfl (by decide) (by decide)
  obtain ⟨stored, ran, loaded⟩ := both.1 (.bool true) (fun _ => 0) trivial
  cases ran
  simp [genDeserialisation] at loaded

end Exact

end Shady
