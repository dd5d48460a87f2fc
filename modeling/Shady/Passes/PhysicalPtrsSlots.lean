import Shady.Ir.LayoutLaw
import Shady.Passes.LowerPhysicalPtrs

/-!
# Where the generated code keeps a value

A type without booleans is kept in a list of slots, one for each of its scalars, at the
places its extents give. The generated store writes the scalars of a value to the slots in
order, and the generated load reads them back.
-/

set_option autoImplicit false

namespace Shady

open WordArray (Slot InSlots storeFrom loadFrom storeAll loadAll)

/-! ## One integer -/

section Integers
variable {config : PointerModel}

theorem wordTurns_lower (config : PointerModel) (width : IntSizes) :
    (wordTurns config width - 1) * config.wordSize.sizeInBytes < width.sizeInBytes := by
  have some := width.sizeInBytes_pos
  have words := Nat.div_mul_le_self (width.sizeInBytes + config.wordSize.sizeInBytes - 1)
    config.wordSize.sizeInBytes
  rw [wordTurns, Nat.sub_mul, Nat.one_mul]
  omega

theorem wordTurns_upper (config : PointerModel) (width : IntSizes) :
    width.sizeInBytes ≤ wordTurns config width * config.wordSize.sizeInBytes := by
  have words := Nat.lt_div_mul_add (a := width.sizeInBytes + config.wordSize.sizeInBytes - 1)
    config.wordSize.sizeInBytes_pos
  rw [wordTurns]
  omega

theorem wordTurns_le (config : PointerModel) (width : IntSizes) :
    wordTurns config width ≤ width.sizeInBytes := by
  have lower := wordTurns_lower config width
  have word := Nat.le_mul_of_pos_right (wordTurns config width - 1) config.wordSize.sizeInBytes_pos
  omega

theorem wordTurns_lower_bits (config : PointerModel) (width : IntSizes) :
    (wordTurns config width - 1) * config.wordSize.bits < width.bits := by
  have lower := wordTurns_lower config width
  rw [IntSizes.bits, IntSizes.bits, ← Nat.mul_assoc]
  omega

theorem wordTurns_upper_bits (config : PointerModel) (width : IntSizes) :
    width.bits ≤ wordTurns config width * config.wordSize.bits := by
  have upper := wordTurns_upper config width
  rw [IntSizes.bits, IntSizes.bits, ← Nat.mul_assoc]
  omega

/-- The words that an integer at an address takes. -/
def intSlot (config : PointerModel) (width : IntSizes) (address : Nat) :
    Slot config.wordSize.bits where
  first := bytesToWords config address
  count := wordTurns config width
  width := width.bits
  lower := wordTurns_lower_bits config width
  upper := wordTurns_upper_bits config width

theorem ptrAdd_eq {a b : Nat} (below : a + b < 2 ^ config.ptrSize.bits) :
    ptrAdd config a b = a + b := Nat.mod_eq_of_lt below

theorem nextShift_eq {width : IntSizes} {shift : Nat}
    (below : shift + config.wordSize.bits < 2 ^ width.bits) :
    nextShift config width shift = shift + config.wordSize.bits := Nat.mod_eq_of_lt below

/-- Neither the index nor the shift of a turn wraps around. -/
theorem storeTurns_eq {width : IntSizes} {value turns offset shift : Nat}
    (words : WordArray config) (inside : offset + turns ≤ 2 ^ config.ptrSize.bits)
    (shifts : shift + (turns - 1) * config.wordSize.bits < 2 ^ width.bits) :
    storeTurns config width value turns offset shift words =
      storeFrom turns offset (value >>> shift) words := by
  induction turns generalizing offset shift words with
  | zero => rfl
  | succ turns ih =>
      rw [storeTurns, storeFrom]
      cases turns with
      | zero => rfl
      | succ turns =>
          have room : shift + config.wordSize.bits + turns * config.wordSize.bits <
              2 ^ width.bits := by
            rw [Nat.add_sub_cancel, Nat.succ_mul] at shifts
            omega
          rw [ptrAdd_eq (by omega), nextShift_eq (by omega), ih _ (by omega) room,
            Nat.shiftRight_add]

/-- A turn of the load adds the bits of one word. -/
theorem acc_or {acc word shift width : Nat} (accShift : acc < 2 ^ shift) (accWidth : acc < 2 ^ width) :
    (acc ||| (word % 2 ^ width) <<< shift % 2 ^ width) = (acc + 2 ^ shift * word) % 2 ^ width := by
  have shifted : (word % 2 ^ width) <<< shift % 2 ^ width = word <<< shift % 2 ^ width := by
    rw [Nat.shiftLeft_eq, Nat.shiftLeft_eq, Nat.mod_mul_mod]
  have sum : (acc ||| word <<< shift) = acc + 2 ^ shift * word := by
    rw [Nat.or_comm, ← Nat.shiftLeft_add_eq_or_of_lt accShift, Nat.shiftLeft_eq, Nat.mul_comm,
      Nat.add_comm]
  calc (acc ||| (word % 2 ^ width) <<< shift % 2 ^ width)
      = (acc % 2 ^ width ||| word <<< shift % 2 ^ width) := by
        rw [shifted, Nat.mod_eq_of_lt accWidth]
    _ = (acc ||| word <<< shift) % 2 ^ width := (Nat.or_mod_two_pow ..).symm
    _ = (acc + 2 ^ shift * word) % 2 ^ width := by rw [sum]

theorem loadTurns_eq {width : IntSizes} {turns offset shift acc : Nat}
    (words : WordArray config) (inside : offset + turns ≤ 2 ^ config.ptrSize.bits)
    (shifts : shift + (turns - 1) * config.wordSize.bits < 2 ^ width.bits)
    (accShift : acc < 2 ^ shift) (accWidth : acc < 2 ^ width.bits) :
    loadTurns config width words turns offset shift acc =
      (acc + 2 ^ shift * loadFrom turns offset words) % 2 ^ width.bits := by
  induction turns generalizing offset shift acc with
  | zero => rw [loadTurns, loadFrom, Nat.mul_zero, Nat.add_zero, Nat.mod_eq_of_lt accWidth]
  | succ turns ih =>
      rw [loadTurns, acc_or accShift accWidth, loadFrom]
      cases turns with
      | zero => rw [loadTurns, loadFrom, Nat.mul_zero, Nat.zero_add]
      | succ turns =>
          have room : shift + config.wordSize.bits + turns * config.wordSize.bits <
              2 ^ width.bits := by
            rw [Nat.add_sub_cancel, Nat.succ_mul] at shifts
            omega
          have accNext : (acc + 2 ^ shift * (words offset).toNat) % 2 ^ width.bits <
              2 ^ (shift + config.wordSize.bits) := by
            apply Nat.lt_of_le_of_lt (Nat.mod_le _ _)
            have word := (words offset).isLt
            calc acc + 2 ^ shift * (words offset).toNat
                < 2 ^ shift * ((words offset).toNat + 1) := by
                  rw [Nat.mul_succ]
                  omega
              _ ≤ 2 ^ shift * 2 ^ config.wordSize.bits := Nat.mul_le_mul_left _ word
              _ = 2 ^ (shift + config.wordSize.bits) := (pow_add ..).symm
          rw [ptrAdd_eq (by omega), nextShift_eq (by omega),
            ih (by omega) room accNext (Nat.mod_lt _ (Nat.two_pow_pos _)), Nat.mod_add_mod,
            pow_add]
          congr 1
          ring

theorem wordTurns_inside {width : IntSizes} {address : Nat}
    (inRange : address + width.sizeInBytes ≤ 2 ^ config.ptrSize.bits) :
    bytesToWords config address + wordTurns config width ≤ 2 ^ config.ptrSize.bits := by
  have quotient : bytesToWords config address ≤ address := Nat.div_le_self ..
  have turns := wordTurns_le config width
  omega

theorem wordTurns_shifts (config : PointerModel) (width : IntSizes) :
    0 + (wordTurns config width - 1) * config.wordSize.bits < 2 ^ width.bits := by
  rw [Nat.zero_add]
  exact (wordTurns_lower_bits config width).trans Nat.lt_two_pow_self

theorem serialiseInt_eq {width : IntSizes} {address : Nat} (value : Nat) (words : WordArray config)
    (inRange : address + width.sizeInBytes ≤ 2 ^ config.ptrSize.bits) :
    serialiseInt config width address value words =
      (intSlot config width address).store value words :=
  storeTurns_eq words (wordTurns_inside inRange) (wordTurns_shifts config width)

theorem deserialiseInt_eq {width : IntSizes} {address : Nat} (words : WordArray config)
    (inRange : address + width.sizeInBytes ≤ 2 ^ config.ptrSize.bits) :
    deserialiseInt config width address words = (intSlot config width address).load words := by
  rw [deserialiseInt, loadTurns_eq words (wordTurns_inside inRange) (wordTurns_shifts config width)
    (Nat.two_pow_pos _) (Nat.two_pow_pos _), pow_zero, Nat.one_mul, Nat.zero_add]
  rfl

end Integers

/-! ## The slots of a type -/

/-- A row of places, a stride apart. -/
def rowSlots {bits : Nat} (place : Nat → List (Slot bits)) (stride : Nat) :
    Nat → Nat → List (Slot bits)
  | 0, _ => []
  | count + 1, address => place address ++ rowSlots place stride count (address + stride)

section Types
variable (config : PointerModel)

mutual

def slots : DataType → Nat → List (Slot config.wordSize.bits)
  | .int width _, address => [intSlot config width address]
  | .float width, address => [intSlot config (floatToIntWidth width) address]
  | .ptr _, address => [intSlot config config.ptrSize address]
  | .record members, address => memberSlots members 0 address
  | .typeDeclRef body, address => slots body address
  | .qualified _ type, address => slots type address
  | .arr elementType size, address =>
      rowSlots (slots elementType) (extent config elementType).size
        ((size.map literalCount).getD 0) address
  | .pack elementType width, address =>
      rowSlots (slots elementType) (extent config elementType).size width.toNat address
  | _, _ => []

/-- The slots of the members from `offset` on. -/
def memberSlots : List DataType → Nat → Nat → List (Slot config.wordSize.bits)
  | [], _, _ => []
  | member :: members, offset, address =>
      let placed := Packing.roundUp offset (extent config member).align
      slots member (address + placed) ++
        memberSlots members (placed + (extent config member).size) address

end

end Types

mutual

/-- The scalars of a value in the order of the slots. -/
def StoredValue.leaves : StoredValue → List Nat
  | .scalar bits => [bits]
  | .bool _ => []
  | .composite components => leavesAll components

def leavesAll : List StoredValue → List Nat
  | [] => []
  | component :: components => component.leaves ++ leavesAll components

end

section Values
variable {config : PointerModel}

theorem inSlots_row {place : Nat → List (Slot config.wordSize.bits)} {components : List StoredValue}
    (stride : Nat) (each : ∀ v ∈ components, ∀ address, InSlots (place address) v.leaves)
    (address : Nat) :
    InSlots (rowSlots place stride components.length address) (leavesAll components) := by
  induction components generalizing address with
  | nil => exact List.Forall₂.nil
  | cons component components ih =>
      rw [List.forall_mem_cons] at each
      exact List.rel_append (each.1 address) (ih each.2 _)

mutual

theorem inSlots_leaves : ∀ (type : DataType) (value : StoredValue) (address : Nat),
    HasType config type value → InSlots (slots config type address) value.leaves
  | .int _ _, .scalar _, _, typed => List.Forall₂.cons typed List.Forall₂.nil
  | .float _, .scalar _, _, typed => List.Forall₂.cons typed List.Forall₂.nil
  | .ptr _, .scalar _, _, typed => List.Forall₂.cons typed List.Forall₂.nil
  | .bool, .bool _, _, _ => List.Forall₂.nil
  | .record members, .composite components, address, typed =>
      inSlots_members members components 0 address typed
  | .typeDeclRef body, value, address, typed => inSlots_leaves body value address typed
  | .qualified _ type, value, address, typed => inSlots_leaves type value address typed
  | .arr elementType (some size), .composite components, address, typed => by
      have row := inSlots_row (extent config elementType).size
        (fun v member place => inSlots_leaves elementType v place (typed.2 v member)) address
      rw [typed.1] at row
      exact row
  | .pack elementType width, .composite components, address, typed => by
      have row := inSlots_row (extent config elementType).size
        (fun v member place => inSlots_leaves elementType v place (typed.2 v member)) address
      rw [typed.1] at row
      exact row

theorem inSlots_members : ∀ (members : List DataType) (components : List StoredValue)
    (offset address : Nat), HaveTypes config members components →
      InSlots (memberSlots config members offset address) (leavesAll components)
  | [], [], _, _, _ => List.Forall₂.nil
  | member :: members, component :: components, _, address, typed =>
      List.rel_append (inSlots_leaves member component _ typed.1)
        (inSlots_members members components _ address typed.2)

end

/-! ## Layouts -/

mutual

theorem getMemLayout_of_emulated : ∀ type, Emulated type →
    ∃ layout, getMemLayout config type = some layout
  | .bool, _ => ⟨_, rfl⟩
  | .int _ _, _ => ⟨_, rfl⟩
  | .float _, _ => ⟨_, rfl⟩
  | .ptr _, emulated => by
      rw [show _ = AddressSpace.global from emulated]
      exact ⟨_, rfl⟩
  | .record members, emulated => by
      obtain ⟨result, ran⟩ := recordFields_of_emulated members 0 0 emulated
      exact ⟨_, by rw [getMemLayout, ran]; rfl⟩
  | .typeDeclRef body, emulated => getMemLayout_of_emulated body emulated
  | .arr elementType (some size), emulated => by
      obtain ⟨layout, found⟩ := getMemLayout_of_emulated elementType emulated.2
      exact ⟨_, by rw [getMemLayout, found]; rfl⟩
  | .pack elementType width, emulated => by
      obtain ⟨layout, found⟩ := getMemLayout_of_emulated elementType emulated
      exact ⟨_, by rw [getMemLayout, found]; rfl⟩

theorem recordFields_of_emulated : ∀ members offset maxAlign, AllEmulated members →
    ∃ result, recordFields config members offset maxAlign = some result
  | [], _, _, _ => ⟨_, rfl⟩
  | member :: members, offset, maxAlign, emulated => by
      obtain ⟨layout, found⟩ := getMemLayout_of_emulated member emulated.1
      obtain ⟨result, ran⟩ := recordFields_of_emulated members
        (sizeT (roundUp offset layout.alignmentInBytes + layout.sizeInBytes))
        (if layout.alignmentInBytes > maxAlign then layout.alignmentInBytes else maxAlign)
        emulated.2
      refine ⟨(⟨layout, roundUp offset layout.alignmentInBytes⟩ :: result.1, result.2), ?_⟩
      simp only [recordFields, found, Option.bind_eq_bind, Option.bind_some, ran]

end

theorem getMemLayout_extent (type : DataType) (emulated : Emulated type) (fits : Fits config type) :
    getMemLayout config type = some (TypeMemLayout.of (extent config type)) := by
  obtain ⟨layout, found⟩ := getMemLayout_of_emulated type emulated
  rw [found, getMemLayout_eq config type layout fits found]

/-- A member lies behind those before it. -/
theorem fieldOffset_eq {before after : List DataType} {member : DataType}
    (emulated : AllEmulated (before ++ member :: after))
    (fits : Fits config (.record (before ++ member :: after))) :
    getRecordFieldOffsetInBytes config (before ++ member :: after) before.length =
      some (Packing.roundUp (Packing.finish 0 (extents config before))
        (extent config member).align) := by
  obtain ⟨⟨fields, offset, maxAlign⟩, ran⟩ :
      ∃ result, recordFields config (before ++ member :: after) 0 0 = some result :=
    recordFields_of_emulated _ 0 0 emulated
  have found : getRecordLayout config (before ++ member :: after) =
      some (⟨roundUp offset maxAlign, maxAlign⟩, fields) := by
    rw [getRecordLayout, ran]
    rfl
  have placed := (getRecordLayout_eq fits found).1
  have behind : (extents config before).length = before.length := by
    rw [extents_eq_map, List.length_map]
  have field : fields[before.length]? = some (FieldLayout.of
      (Packing.roundUp (Packing.finish 0 (extents config before)) (extent config member).align,
        extent config member)) := by
    rw [placed, extents_eq_map, List.map_append, ← extents_eq_map, Packing.place_append,
      List.map_append, List.getElem?_append_right (by rw [List.length_map, Packing.length_place, behind]),
      List.length_map, Packing.length_place, behind, Nat.sub_self]
    rfl
  simp only [getRecordFieldOffsetInBytes, found, field, Option.bind_eq_bind, Option.bind_some,
    FieldLayout.of]

end Values

/-! ## The generated store and load -/

def DataType.isRecord : DataType → Bool
  | .record _ => true
  | _ => false

mutual

/-- No booleans, and every named type is a record, as far as a value has components. -/
def Plain : DataType → Prop
  | .bool => False
  | .record members => AllPlain members
  | .typeDeclRef body => body.isRecord ∧ Plain body
  | .qualified _ type => Plain type
  | .arr elementType size => (size.map literalCount).getD 0 = 0 ∨ Plain elementType
  | .pack elementType width => width.toNat = 0 ∨ Plain elementType
  | _ => True

def AllPlain : List DataType → Prop
  | [] => True
  | member :: members => Plain member ∧ AllPlain members

end

section Generated
variable {config : PointerModel}

/-- The address of a type in range, as a pointer. -/
def toPtr (config : PointerModel) (address : Nat) : Nat := address % 2 ^ config.ptrSize.bits

theorem toPtr_eq {address : Nat} (below : address < 2 ^ config.ptrSize.bits) :
    toPtr config address = address := Nat.mod_eq_of_lt below

theorem ptrAdd_toPtr (address offset : Nat) :
    ptrAdd config (toPtr config address) offset = toPtr config (address + offset) :=
  Nat.mod_add_mod ..

theorem serialiseComponents_eq
    {store : Nat → StoredValue → WordArray config → Option (WordArray config)}
    (place : Nat → List (Slot config.wordSize.bits)) {layout : TypeMemLayout}
    {components : List StoredValue}
    (each : ∀ v ∈ components, ∀ address words,
      address + layout.sizeInBytes ≤ 2 ^ config.ptrSize.bits →
        store (toPtr config address) v words = some (storeAll (place address) v.leaves words))
    (sized : ∀ v ∈ components, ∀ address, (place address).length = v.leaves.length)
    (address : Nat) (words : WordArray config)
    (inRange : address + components.length * layout.sizeInBytes ≤ 2 ^ config.ptrSize.bits) :
    serialiseComponents config store (some layout) components (toPtr config address) words =
      some (storeAll (rowSlots place layout.sizeInBytes components.length address)
        (leavesAll components) words) := by
  induction components generalizing address words with
  | nil => rfl
  | cons component components ih =>
      rw [List.forall_mem_cons] at each sized
      rw [List.length_cons, Nat.succ_mul] at inRange
      rw [serialiseComponents, each.1 _ _ (by omega), Option.bind_eq_bind, Option.bind_some,
        Option.bind_eq_bind, Option.bind_some, ptrAdd_toPtr,
        ih each.2 sized.2 _ _ (by omega), List.length_cons, rowSlots, leavesAll,
        WordArray.storeAll_append (sized.1 address)]

theorem serialiseInt_toPtr {width : IntSizes} {address : Nat} (value : Nat) (words : WordArray config)
    (inRange : address + width.sizeInBytes ≤ 2 ^ config.ptrSize.bits) :
    serialiseInt config width (toPtr config address) value words =
      storeAll [intSlot config width address] [value] words := by
  have some := width.sizeInBytes_pos
  rw [toPtr_eq (by omega), serialiseInt_eq value words inRange]
  rfl

theorem deserialiseInt_toPtr {width : IntSizes} {address : Nat} (words : WordArray config)
    (inRange : address + width.sizeInBytes ≤ 2 ^ config.ptrSize.bits) :
    [deserialiseInt config width (toPtr config address) words] =
      loadAll [intSlot config width address] words := by
  have some := width.sizeInBytes_pos
  rw [toPtr_eq (by omega), deserialiseInt_eq words inRange]
  rfl

theorem floatToIntWidth_sizeInBytes (width : FloatSizes) :
    (floatToIntWidth width).sizeInBytes = width.sizeInBytes := by
  cases width <;> rfl

theorem member_within (config : PointerModel) (before after : List DataType) (member : DataType) :
    Packing.roundUp (Packing.finish 0 (extents config before)) (extent config member).align +
      (extent config member).size ≤
        Packing.finish 0 (extents config (before ++ member :: after)) := by
  rw [extents_eq_map config (before ++ member :: after), List.map_append, ← extents_eq_map,
    Packing.finish_append, List.map_cons, Packing.finish]
  exact Packing.start_le_finish _ _

/-- A member of a record in range is in range. -/
theorem member_inRange {before after : List DataType} {member : DataType} {address : Nat}
    (inRange : address + Packing.finish 0 (extents config (before ++ member :: after)) ≤
      2 ^ config.ptrSize.bits) :
    address + Packing.roundUp (Packing.finish 0 (extents config before))
      (extent config member).align + (extent config member).size ≤ 2 ^ config.ptrSize.bits := by
  have within := member_within config before after member
  omega

theorem finish_behind (before : List DataType) (member : DataType) :
    Packing.finish 0 (extents config (before ++ [member])) =
      Packing.roundUp (Packing.finish 0 (extents config before)) (extent config member).align +
        (extent config member).size := by
  rw [extents_eq_map, List.map_append, ← extents_eq_map, Packing.finish_append]
  rfl

mutual

/-- The generated store writes the scalars of the value to the slots of the type. -/
theorem genSerialisation_eq : ∀ (type : DataType) (address : Nat) (value : StoredValue)
    (words : WordArray config), Emulated type → Plain type → Fits config type →
    address + (extent config type).size ≤ 2 ^ config.ptrSize.bits → HasType config type value →
      genSerialisation config type (toPtr config address) value words =
        some (storeAll (slots config type address) value.leaves words)
  | .int _ _, address, .scalar bits, words, _, _, _, inRange, _ => by
      rw [genSerialisation, serialiseInt_toPtr bits words inRange]
      rfl
  | .float width, address, .scalar bits, words, _, _, _, inRange, _ => by
      have inRange' : address + (floatToIntWidth width).sizeInBytes ≤ 2 ^ config.ptrSize.bits := by
        rw [floatToIntWidth_sizeInBytes]
        exact inRange
      rw [genSerialisation, serialiseInt_toPtr bits words inRange']
      rfl
  | .ptr _, address, .scalar bits, words, emulated, _, _, inRange, _ => by
      rw [show _ = AddressSpace.global from emulated, genSerialisation,
        serialiseInt_toPtr bits words inRange]
      rfl
  | .record members, address, .composite components, words, emulated, plain, fits, inRange, typed => by
      have within : address + Packing.finish 0 (extents config members) ≤
          2 ^ config.ptrSize.bits :=
        Nat.le_trans (Nat.add_le_add_left (Packing.le_roundUp _ _) _) inRange
      rw [genSerialisation]
      exact serialiseMembers_eq [] members address components words emulated emulated plain fits
        fits.1 within typed
  | .typeDeclRef body, address, value, words, emulated, plain, fits, inRange, typed => by
      rw [genSerialisation]
      exact genSerialisation_eq body address value words emulated plain.2 fits inRange typed
  | .arr elementType (some size), address, .composite components, words, emulated, plain, fits,
      inRange, typed => by
      rw [genSerialisation, if_pos typed.1, getMemLayout_extent elementType emulated.2 fits.1,
        serialiseComponents_eq (slots config elementType) ?_ ?_ address words
          (by rw [typed.1]; exact inRange), typed.1]
      · rfl
      · intro v member place words inRange'
        have inner : Plain elementType := by
          apply plain.resolve_left
          rw [Option.map_some, Option.getD_some, ← typed.1]
          exact (List.length_pos_of_mem member).ne'
        exact genSerialisation_eq elementType place v words emulated.2 inner fits.1 inRange'
          (typed.2 v member)
      · intro v member place
        exact (inSlots_leaves elementType v place (typed.2 v member)).length_eq
  | .pack elementType width, address, .composite components, words, emulated, plain, fits,
      inRange, typed => by
      rw [genSerialisation, if_pos typed.1, getMemLayout_extent elementType emulated fits.1,
        serialiseComponents_eq (slots config elementType) ?_ ?_ address words
          (by rw [typed.1]; exact inRange), typed.1]
      · rfl
      · intro v member place words inRange'
        have inner : Plain elementType := by
          apply plain.resolve_left
          rw [← typed.1]
          exact (List.length_pos_of_mem member).ne'
        exact genSerialisation_eq elementType place v words emulated inner fits.1 inRange'
          (typed.2 v member)
      · intro v member place
        exact (inSlots_leaves elementType v place (typed.2 v member)).length_eq

theorem serialiseMembers_eq (before : List DataType) : ∀ (members : List DataType) (address : Nat)
    (components : List StoredValue) (words : WordArray config),
    AllEmulated (before ++ members) → AllEmulated members → AllPlain members →
    Fits config (.record (before ++ members)) → FitsAll config members →
    address + Packing.finish 0 (extents config (before ++ members)) ≤ 2 ^ config.ptrSize.bits →
    HaveTypes config members components →
      serialiseMembers config (before ++ members) members before.length (toPtr config address)
          components words =
        some (storeAll
          (memberSlots config members (Packing.finish 0 (extents config before)) address)
          (leavesAll components) words)
  | [], _, [], _, _, _, _, _, _, _, _ => rfl
  | member :: members, address, component :: components, words, whole, emulated, plain, fits,
      fitsAll, inRange, typed => by
      have here := member_inRange inRange
      rw [serialiseMembers, fieldOffset_eq whole fits, Option.bind_eq_bind, Option.bind_some,
        ptrAdd_toPtr, genSerialisation_eq member _ component words emulated.1 plain.1 fitsAll.1 here
          typed.1, Option.bind_eq_bind, Option.bind_some]
      have split : before ++ member :: members = (before ++ [member]) ++ members := by simp
      rw [split] at whole fits inRange ⊢
      have rest := serialiseMembers_eq (before ++ [member]) members address components
        (storeAll (slots config member (address + Packing.roundUp
          (Packing.finish 0 (extents config before)) (extent config member).align))
          component.leaves words) whole emulated.2 plain.2 fits
        fitsAll.2 inRange typed.2
      rw [List.length_append, List.length_singleton] at rest
      rw [rest, memberSlots, leavesAll, WordArray.storeAll_append
        (inSlots_leaves member component _ typed.1).length_eq, finish_behind]

end

theorem deserialiseComponents_eq {load : Nat → Option StoredValue} {words : WordArray config}
    (place : Nat → List (Slot config.wordSize.bits)) (layout : TypeMemLayout)
    {typed : StoredValue → Prop} {count : Nat}
    (each : count ≠ 0 → ∀ address, address + layout.sizeInBytes ≤ 2 ^ config.ptrSize.bits →
      ∃ v, load (toPtr config address) = some v ∧ typed v ∧
        v.leaves = loadAll (place address) words)
    (address : Nat) (inRange : address + count * layout.sizeInBytes ≤ 2 ^ config.ptrSize.bits) :
    ∃ components,
      deserialiseComponents config load (some layout) count (toPtr config address) =
        some components ∧
      (components.length = count ∧ ∀ v ∈ components, typed v) ∧
      leavesAll components = loadAll (rowSlots place layout.sizeInBytes count address) words := by
  induction count generalizing address with
  | zero => exact ⟨[], rfl, ⟨rfl, by simp⟩, rfl⟩
  | succ count ih =>
      rw [Nat.succ_mul] at inRange
      have here := each (Nat.succ_ne_zero count)
      obtain ⟨component, loaded, componentTyped, leaves⟩ := here address (by omega)
      obtain ⟨components, rest, ⟨length, allTyped⟩, restLeaves⟩ :=
        ih (fun _ => here) (address + layout.sizeInBytes) (by omega)
      refine ⟨component :: components, ?_, ⟨?_, ?_⟩, ?_⟩
      · simp only [deserialiseComponents, loaded, Option.bind_eq_bind, Option.bind_some,
          ptrAdd_toPtr, rest]
      · rw [List.length_cons, length]
      · exact List.forall_mem_cons.mpr ⟨componentTyped, allTyped⟩
      · rw [leavesAll, rowSlots, WordArray.loadAll_append, leaves, restLeaves]

mutual

/-- The generated load reads the scalars of a value of the type from the slots. -/
theorem genDeserialisation_eq (words : WordArray config) : ∀ (type : DataType) (address : Nat),
    Emulated type → Plain type → Fits config type →
    address + (extent config type).size ≤ 2 ^ config.ptrSize.bits →
      ∃ value, genDeserialisation config words type (toPtr config address) = some value ∧
        HasType config type value ∧ value.leaves = loadAll (slots config type address) words
  | .int width _, address, _, _, _, inRange => by
      refine ⟨_, rfl, ?_, deserialiseInt_toPtr words inRange⟩
      have only := List.singleton_inj.mp (deserialiseInt_toPtr words inRange)
      rw [HasType, only]
      exact Slot.load_lt _ _
  | .float width, address, _, _, _, inRange => by
      have inRange' : address + (floatToIntWidth width).sizeInBytes ≤ 2 ^ config.ptrSize.bits := by
        rw [floatToIntWidth_sizeInBytes]
        exact inRange
      refine ⟨_, rfl, ?_, deserialiseInt_toPtr words inRange'⟩
      have only := List.singleton_inj.mp (deserialiseInt_toPtr words inRange')
      rw [HasType, only]
      exact Slot.load_lt _ _
  | .ptr _, address, emulated, _, _, inRange => by
      rw [show _ = AddressSpace.global from emulated]
      refine ⟨_, rfl, ?_, deserialiseInt_toPtr words inRange⟩
      have only := List.singleton_inj.mp (deserialiseInt_toPtr words inRange)
      rw [HasType, only]
      exact Slot.load_lt _ _
  | .record members, address, emulated, plain, fits, inRange => by
      have within : address + Packing.finish 0 (extents config members) ≤
          2 ^ config.ptrSize.bits :=
        Nat.le_trans (Nat.add_le_add_left (Packing.le_roundUp _ _) _) inRange
      obtain ⟨components, loaded, typed, leaves⟩ := deserialiseMembers_eq words [] members address
        emulated emulated plain fits fits.1 within
      refine ⟨.composite components, ?_, typed, leaves⟩
      rw [genDeserialisation]
      exact congrArg (Option.bind · _) loaded
  | .typeDeclRef (.record members), address, emulated, plain, fits, inRange => by
      have within : address + Packing.finish 0 (extents config members) ≤
          2 ^ config.ptrSize.bits :=
        Nat.le_trans (Nat.add_le_add_left (Packing.le_roundUp _ _) _) inRange
      obtain ⟨components, loaded, typed, leaves⟩ := deserialiseMembers_eq words [] members address
        emulated emulated plain.2 fits fits.1 within
      refine ⟨.composite components, ?_, typed, leaves⟩
      rw [genDeserialisation]
      exact congrArg (Option.bind · _) loaded
  | .arr elementType (some size), address, emulated, plain, fits, inRange => by
      obtain ⟨components, loaded, typed, leaves⟩ := deserialiseComponents_eq
        (slots config elementType) (TypeMemLayout.of (extent config elementType))
        (fun occupied place inRange' =>
          genDeserialisation_eq words elementType place emulated.2
            (plain.resolve_left occupied) fits.1 inRange') address inRange
      refine ⟨.composite components, ?_, typed, leaves⟩
      rw [genDeserialisation, getMemLayout_extent elementType emulated.2 fits.1]
      exact congrArg (Option.bind · _) loaded
  | .pack elementType width, address, emulated, plain, fits, inRange => by
      obtain ⟨components, loaded, typed, leaves⟩ := deserialiseComponents_eq
        (slots config elementType) (TypeMemLayout.of (extent config elementType))
        (fun occupied place inRange' =>
          genDeserialisation_eq words elementType place emulated
            (plain.resolve_left occupied) fits.1 inRange') address inRange
      refine ⟨.composite components, ?_, typed, leaves⟩
      rw [genDeserialisation, getMemLayout_extent elementType emulated fits.1]
      exact congrArg (Option.bind · _) loaded

theorem deserialiseMembers_eq (words : WordArray config) (before : List DataType) :
    ∀ (members : List DataType) (address : Nat),
    AllEmulated (before ++ members) → AllEmulated members → AllPlain members →
    Fits config (.record (before ++ members)) → FitsAll config members →
    address + Packing.finish 0 (extents config (before ++ members)) ≤ 2 ^ config.ptrSize.bits →
      ∃ components,
        deserialiseMembers config words (before ++ members) members before.length
          (toPtr config address) = some components ∧
        HaveTypes config members components ∧
        leavesAll components = loadAll
          (memberSlots config members (Packing.finish 0 (extents config before)) address) words
  | [], _, _, _, _, _, _, _ => ⟨[], rfl, trivial, rfl⟩
  | member :: members, address, whole, emulated, plain, fits, fitsAll, inRange => by
      have here := member_inRange inRange
      have offset := fieldOffset_eq whole fits
      obtain ⟨component, loaded, componentTyped, leaves⟩ :=
        genDeserialisation_eq words member _ emulated.1 plain.1 fitsAll.1 here
      have split : before ++ member :: members = (before ++ [member]) ++ members := by simp
      rw [split] at whole fits inRange offset ⊢
      obtain ⟨components, rest, typed, restLeaves⟩ := deserialiseMembers_eq words
        (before ++ [member]) members address whole emulated.2 plain.2 fits fitsAll.2 inRange
      rw [List.length_append, List.length_singleton] at rest
      refine ⟨component :: components, ?_, ⟨componentTyped, typed⟩, ?_⟩
      · simp only [deserialiseMembers, offset, Option.bind_eq_bind, Option.bind_some,
          ptrAdd_toPtr, loaded, rest]
      · rw [leavesAll, memberSlots, WordArray.loadAll_append, leaves, restLeaves, finish_behind]

end

/-! ## Values and their scalars -/

theorem leavesAll_inj {typed : StoredValue → Prop}
    (each : ∀ v v', typed v → typed v' → v.leaves = v'.leaves → v = v')
    (sized : ∀ v v', typed v → typed v' → v.leaves.length = v'.leaves.length) :
    ∀ {components components' : List StoredValue}, components.length = components'.length →
      (∀ v ∈ components, typed v) → (∀ v ∈ components', typed v) →
      leavesAll components = leavesAll components' → components = components'
  | [], [], _, _, _, _ => rfl
  | component :: components, component' :: components', same, all, all', leaves => by
      rw [List.forall_mem_cons] at all all'
      have parts := List.append_inj leaves (sized _ _ all.1 all'.1)
      rw [each _ _ all.1 all'.1 parts.1,
        leavesAll_inj each sized (Nat.succ.inj same) all.2 all'.2 parts.2]

theorem leaves_length {type : DataType} {v v' : StoredValue} (typed : HasType config type v)
    (typed' : HasType config type v') : v.leaves.length = v'.leaves.length :=
  (inSlots_leaves type v 0 typed).length_eq.symm.trans (inSlots_leaves type v' 0 typed').length_eq

mutual

/-- Without booleans, the scalars determine the value. -/
theorem leaves_inj : ∀ (type : DataType) (v v' : StoredValue), Plain type →
    HasType config type v → HasType config type v' → v.leaves = v'.leaves → v = v'
  | .int _ _, .scalar _, .scalar _, _, _, _, leaves => by rw [List.singleton_inj.mp leaves]
  | .float _, .scalar _, .scalar _, _, _, _, leaves => by rw [List.singleton_inj.mp leaves]
  | .ptr _, .scalar _, .scalar _, _, _, _, leaves => by rw [List.singleton_inj.mp leaves]
  | .record members, .composite components, .composite components', plain, typed, typed', leaves => by
      rw [members_leaves_inj members components components' plain typed typed' leaves]
  | .typeDeclRef body, v, v', plain, typed, typed', leaves =>
      leaves_inj body v v' plain.2 typed typed' leaves
  | .qualified _ type, v, v', plain, typed, typed', leaves =>
      leaves_inj type v v' plain typed typed' leaves
  | .arr elementType (some size), .composite components, .composite components', plain, typed,
      typed', leaves => by
      cases plain with
      | inl empty =>
          rw [List.eq_nil_of_length_eq_zero (typed.1.trans empty),
            List.eq_nil_of_length_eq_zero (typed'.1.trans empty)]
      | inr plain =>
          rw [leavesAll_inj (fun v v' => leaves_inj elementType v v' plain)
            (fun _ _ => leaves_length) (typed.1.trans typed'.1.symm) typed.2 typed'.2 leaves]
  | .pack elementType width, .composite components, .composite components', plain, typed,
      typed', leaves => by
      cases plain with
      | inl empty =>
          rw [List.eq_nil_of_length_eq_zero (typed.1.trans empty),
            List.eq_nil_of_length_eq_zero (typed'.1.trans empty)]
      | inr plain =>
          rw [leavesAll_inj (fun v v' => leaves_inj elementType v v' plain)
            (fun _ _ => leaves_length) (typed.1.trans typed'.1.symm) typed.2 typed'.2 leaves]

theorem members_leaves_inj : ∀ (members : List DataType) (vs vs' : List StoredValue),
    AllPlain members → HaveTypes config members vs → HaveTypes config members vs' →
      leavesAll vs = leavesAll vs' → vs = vs'
  | [], [], [], _, _, _, _ => rfl
  | member :: members, v :: vs, v' :: vs', plain, typed, typed', leaves => by
      have parts := List.append_inj leaves (leaves_length typed.1 typed'.1)
      rw [leaves_inj member v v' plain.1 typed.1 typed'.1 parts.1,
        members_leaves_inj members vs vs' plain.2 typed.2 typed'.2 parts.2]

end

theorem exists_row {place : Nat → List (Slot config.wordSize.bits)} {typed : StoredValue → Prop}
    (stride : Nat)
    (each : ∀ address values, InSlots (place address) values →
      ∃ v, typed v ∧ v.leaves = values) :
    ∀ (count address : Nat) (values : List Nat),
      InSlots (rowSlots place stride count address) values →
      ∃ components, (components.length = count ∧ ∀ v ∈ components, typed v) ∧
        leavesAll components = values
  | 0, _, values, fitting => by
      cases fitting
      exact ⟨[], ⟨rfl, by simp⟩, rfl⟩
  | count + 1, address, values, fitting => by
      obtain ⟨values₁, values₂, rfl, here, later⟩ := WordArray.inSlots_split fitting
      obtain ⟨v, vTyped, rfl⟩ := each address values₁ here
      obtain ⟨components, ⟨rfl, allTyped⟩, rfl⟩ := exists_row stride each count _ values₂ later
      exact ⟨v :: components, ⟨rfl, List.forall_mem_cons.mpr ⟨vTyped, allTyped⟩⟩, rfl⟩

mutual

/-- Any numbers of the widths of the slots are the scalars of a value. -/
theorem exists_leaves : ∀ (type : DataType) (address : Nat) (values : List Nat),
    Emulated type → InSlots (slots config type address) values →
      ∃ v, HasType config type v ∧ v.leaves = values
  | .int _ _, _, _, _, .cons below .nil => ⟨.scalar _, below, rfl⟩
  | .float _, _, _, _, .cons below .nil => ⟨.scalar _, below, rfl⟩
  | .ptr _, _, _, _, .cons below .nil => ⟨.scalar _, below, rfl⟩
  | .bool, _, _, _, .nil => ⟨.bool true, trivial, rfl⟩
  | .record members, address, values, emulated, fitting => by
      obtain ⟨components, typed, leaves⟩ := exists_members members 0 address values emulated fitting
      exact ⟨.composite components, typed, leaves⟩
  | .typeDeclRef body, address, values, emulated, fitting =>
      exists_leaves body address values emulated fitting
  | .arr elementType (some size), address, values, emulated, fitting => by
      obtain ⟨components, typed, leaves⟩ := exists_row _
        (fun place values => exists_leaves elementType place values emulated.2) _ address values
        fitting
      exact ⟨.composite components, typed, leaves⟩
  | .pack elementType width, address, values, emulated, fitting => by
      obtain ⟨components, typed, leaves⟩ := exists_row _
        (fun place values => exists_leaves elementType place values emulated) _ address values
        fitting
      exact ⟨.composite components, typed, leaves⟩

theorem exists_members : ∀ (members : List DataType) (offset address : Nat) (values : List Nat),
    AllEmulated members → InSlots (memberSlots config members offset address) values →
      ∃ components, HaveTypes config members components ∧ leavesAll components = values
  | [], _, _, _, _, .nil => ⟨[], trivial, rfl⟩
  | member :: members, _, address, values, emulated, fitting => by
      obtain ⟨values₁, values₂, rfl, here, later⟩ := WordArray.inSlots_split fitting
      obtain ⟨v, vTyped, rfl⟩ := exists_leaves member _ values₁ emulated.1 here
      obtain ⟨components, typed, rfl⟩ := exists_members members _ address values₂ emulated.2 later
      exact ⟨v :: components, ⟨vTyped, typed⟩, rfl⟩

end

end Generated

end Shady
