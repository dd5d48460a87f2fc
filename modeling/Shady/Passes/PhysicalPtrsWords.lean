import Shady.Passes.PhysicalPtrsSlots

/-!
# The words behind a type

Every slot of a type lies in the words from its address to its end. Two slots share a word
only where the elements of a row, narrow scalars then, fill no whole words.
-/

set_option autoImplicit false

namespace Shady

open WordArray (Slot)

section
variable (config : PointerModel)

mutual

/-- Two elements in a row are whole words. -/
def WordRows : DataType → Prop
  | .arr elementType size =>
      (size.map literalCount).getD 0 = 0 ∨ WordRows elementType ∧
        ((size.map literalCount).getD 0 = 1 ∨
          config.wordSize.sizeInBytes ∣ (extent config elementType).size)
  | .pack elementType width =>
      width.toNat = 0 ∨ WordRows elementType ∧
        (width.toNat = 1 ∨ config.wordSize.sizeInBytes ∣ (extent config elementType).size)
  | .qualified _ type => WordRows type
  | .typeDeclRef body => WordRows body
  | .record members => AllWordRows members
  | _ => True

def AllWordRows : List DataType → Prop
  | [] => True
  | member :: members => WordRows member ∧ AllWordRows members

end

end

section Geometry
variable {config : PointerModel}

/-! ## The words of a type -/

theorem mem_rowSlots {bits : Nat} {place : Nat → List (Slot bits)} {stride count address : Nat}
    {slot : Slot bits} (member : slot ∈ rowSlots place stride count address) :
    ∃ i < count, slot ∈ place (address + i * stride) := by
  induction count generalizing address with
  | zero => simp [rowSlots] at member
  | succ count ih =>
      rw [rowSlots, List.mem_append] at member
      cases member with
      | inl here => exact ⟨0, Nat.succ_pos count, by rwa [Nat.zero_mul, Nat.add_zero]⟩
      | inr later =>
          obtain ⟨i, below, member⟩ := ih later
          refine ⟨i + 1, Nat.succ_lt_succ below, ?_⟩
          rwa [Nat.succ_mul, Nat.add_comm _ stride, ← Nat.add_assoc]

/-- A slot lies from the word of the address on, and begins each of its words before the end. -/
def Within (config : PointerModel) (lower upper : Nat) (slot : Slot config.wordSize.bits) : Prop :=
  ∀ index, slot.Holds index →
    lower / config.wordSize.sizeInBytes ≤ index ∧ index * config.wordSize.sizeInBytes < upper

theorem Within.mono {lower lower' upper upper' : Nat} {slot : Slot config.wordSize.bits}
    (within : Within config lower upper slot) (below : lower' ≤ lower) (above : upper ≤ upper') :
    Within config lower' upper' slot := fun index held =>
  ⟨Nat.le_trans (Nat.div_le_div_right below) (within index held).1,
    Nat.lt_of_lt_of_le (within index held).2 above⟩

theorem intSlot_within (width : IntSizes) (address : Nat) :
    Within config address (address + width.sizeInBytes) (intSlot config width address) := by
  intro index held
  refine ⟨held.1, ?_⟩
  have turns := wordTurns_lower config width
  have before := Nat.div_mul_le_self address config.wordSize.sizeInBytes
  have last : index ≤ address / config.wordSize.sizeInBytes + (wordTurns config width - 1) := by
    have upper := held.2
    simp only [intSlot, bytesToWords] at upper
    omega
  have reached := Nat.mul_le_mul_right config.wordSize.sizeInBytes last
  rw [Nat.add_mul] at reached
  omega

theorem rowSlots_within {place : Nat → List (Slot config.wordSize.bits)} {stride : Nat}
    (each : ∀ address, ∀ slot ∈ place address, Within config address (address + stride) slot)
    (count address : Nat) :
    ∀ slot ∈ rowSlots place stride count address,
      Within config address (address + count * stride) slot := by
  intro slot member
  obtain ⟨i, below, member⟩ := mem_rowSlots member
  apply (each _ slot member).mono (Nat.le_add_right _ _)
  have := Nat.mul_le_mul_right stride below
  rw [Nat.succ_mul] at this
  omega

mutual

theorem slots_within : ∀ (type : DataType) (address : Nat), ∀ slot ∈ slots config type address,
    Within config address (address + (extent config type).size) slot
  | .int width _, address, slot, member => by
      rw [List.mem_singleton.mp member]
      exact intSlot_within width address
  | .float width, address, slot, member => by
      rw [List.mem_singleton.mp member, extent, scalarExtent, ← floatToIntWidth_sizeInBytes]
      exact intSlot_within _ address
  | .ptr _, address, slot, member => by
      rw [List.mem_singleton.mp member]
      exact intSlot_within _ address
  | .record members, address, slot, member =>
      (memberSlots_within members 0 address slot member).mono (Nat.le_refl _)
        (Nat.add_le_add_left (Packing.le_roundUp _ _) _)
  | .typeDeclRef body, address, slot, member => slots_within body address slot member
  | .qualified _ type, address, slot, member => slots_within type address slot member
  | .arr elementType size, address, slot, member =>
      rowSlots_within (slots_within elementType) _ address slot member
  | .pack elementType width, address, slot, member =>
      rowSlots_within (slots_within elementType) _ address slot member
  | .bool, _, _, member => by simp [slots] at member
  | .fn, _, _, member => by simp [slots] at member
  | .other, _, _, member => by simp [slots] at member

theorem memberSlots_within : ∀ (members : List DataType) (offset address : Nat),
    ∀ slot ∈ memberSlots config members offset address,
      Within config (address + offset)
        (address + Packing.finish offset (extents config members)) slot
  | [], _, _, _, listed => by simp [memberSlots] at listed
  | member :: members, offset, address, slot, listed => by
      have placed := Packing.le_roundUp offset (extent config member).align
      rw [extents, Packing.finish]
      rw [memberSlots, List.mem_append] at listed
      cases listed with
      | inl here =>
          apply (slots_within member _ slot here).mono (by omega)
          have := Packing.start_le_finish (Packing.roundUp offset (extent config member).align +
            (extent config member).size) (extents config members)
          omega
      | inr later =>
          exact (memberSlots_within members _ address slot later).mono (by omega) (Nat.le_refl _)

end

theorem disjoint_of_within {before after : Slot config.wordSize.bits} {lower border upper : Nat}
    (aligned : config.wordSize.sizeInBytes ∣ border) (front : Within config lower border before)
    (back : Within config border upper after) : before.Disjoint after := by
  intro index held held'
  obtain ⟨k, rfl⟩ := aligned
  have first := (front index held).2
  have second := (back index held').1
  rw [Nat.mul_div_cancel_left _ config.wordSize.sizeInBytes_pos] at second
  have := Nat.mul_le_mul_left config.wordSize.sizeInBytes second
  rw [Nat.mul_comm index] at first
  omega

/-! ## Alignments and sizes in words -/

theorem word_dvd_scalarAlign (config : PointerModel) (width : IntSizes) :
    config.wordSize.sizeInBytes ∣ max width.sizeInBytes config.wordSize.sizeInBytes := by
  cases config.wordSize <;> cases width <;> decide

mutual

theorem word_dvd_align : ∀ (type : DataType), (extent config type).align ≠ 0 →
    config.wordSize.sizeInBytes ∣ (extent config type).align
  | .int width _, _ => word_dvd_scalarAlign config width
  | .float width, _ => by
      rw [extent, scalarExtent, ← floatToIntWidth_sizeInBytes]
      exact word_dvd_scalarAlign config _
  | .ptr _, _ => word_dvd_scalarAlign config _
  | .bool, _ => word_dvd_scalarAlign config _
  | .record members, nonzero => by
      cases Packing.maxAlign_mem (extents config members) with
      | inl zero => exact absurd zero nonzero
      | inr member =>
          obtain ⟨e, listed, equal⟩ := member
          have aligned := word_dvd_aligns members e listed
          rw [extent, Packing.pack] at nonzero ⊢
          dsimp only at nonzero ⊢
          rw [equal] at nonzero ⊢
          exact aligned nonzero
  | .typeDeclRef body, nonzero => word_dvd_align body nonzero
  | .qualified _ type, nonzero => word_dvd_align type nonzero
  | .arr elementType _, nonzero => word_dvd_align elementType nonzero
  | .pack elementType _, nonzero => word_dvd_align elementType nonzero
  | .fn, nonzero => absurd rfl nonzero
  | .other, nonzero => absurd rfl nonzero

theorem word_dvd_aligns : ∀ (members : List DataType), ∀ e ∈ extents config members,
    e.align ≠ 0 → config.wordSize.sizeInBytes ∣ e.align
  | [], _, listed, _ => by simp [extents] at listed
  | member :: members, e, listed, nonzero => by
      rw [extents, List.mem_cons] at listed
      cases listed with
      | inl here => exact here ▸ word_dvd_align member (here ▸ nonzero)
      | inr later => exact word_dvd_aligns members e later nonzero

end

theorem narrow_of_not_dvd (width : IntSizes)
    (ragged : ¬ config.wordSize.sizeInBytes ∣ width.sizeInBytes) :
    width.sizeInBytes < config.wordSize.sizeInBytes := by
  revert ragged
  cases config.wordSize <;> cases width <;> decide

/-- A member with slots begins at a word. -/
theorem word_dvd_placed {type : DataType} (offset : Nat) (nonzero : (extent config type).align ≠ 0) :
    config.wordSize.sizeInBytes ∣ Packing.roundUp offset (extent config type).align :=
  (word_dvd_align type nonzero).trans (Packing.dvd_roundUp offset nonzero)

theorem word_dvd_record_size (members : List DataType) :
    config.wordSize.sizeInBytes ∣ (extent config (.record members)).size := by
  have multiple := Packing.pack_align_dvd_size (hollow_sized config members)
  by_cases zero : (extent config (.record members)).align = 0
  · rw [show (Packing.pack (extents config members)).align = 0 from zero] at multiple
    rw [show (extent config (.record members)).size = 0 from Nat.zero_dvd.mp multiple]
    exact Nat.dvd_zero _
  · exact (word_dvd_align (.record members) zero).trans multiple

mutual

theorem wordRows_of_weightless : ∀ type, Weightless type → WordRows config type
  | .arr elementType _, weightless => weightless.imp id fun element =>
      ⟨wordRows_of_weightless elementType element, Or.inr (by
        rw [(weightless_iff config elementType).mp element]
        exact Nat.dvd_zero _)⟩
  | .pack elementType _, weightless => weightless.imp id fun element =>
      ⟨wordRows_of_weightless elementType element, Or.inr (by
        rw [(weightless_iff config elementType).mp element]
        exact Nat.dvd_zero _)⟩
  | .qualified _ type, weightless => wordRows_of_weightless type weightless
  | .typeDeclRef body, weightless => wordRows_of_weightless body weightless
  | .record members, weightless => allWordRows_of_weightless members weightless
  | .int _ _, _ => trivial
  | .float _, _ => trivial
  | .ptr _, _ => trivial
  | .bool, _ => trivial
  | .fn, _ => trivial
  | .other, _ => trivial

theorem allWordRows_of_weightless : ∀ members, AllWeightless members → AllWordRows config members
  | [], _ => trivial
  | member :: members, weightless =>
      ⟨wordRows_of_weightless member weightless.1, allWordRows_of_weightless members weightless.2⟩

end

theorem rowSlots_nil {bits : Nat} {place : Nat → List (Slot bits)} (stride : Nat)
    (each : ∀ address, place address = []) (count address : Nat) :
    rowSlots place stride count address = [] := by
  induction count generalizing address with
  | zero => rfl
  | succ count ih => rw [rowSlots, each, ih, List.append_nil]

mutual

theorem slots_nil_of_weightless : ∀ type address, Weightless type → slots config type address = []
  | .arr elementType size, address, weightless => by
      rw [slots]
      cases weightless with
      | inl empty => rw [empty, rowSlots]
      | inr element =>
          exact rowSlots_nil _ (fun place => slots_nil_of_weightless elementType place element) _ _
  | .pack elementType width, address, weightless => by
      rw [slots]
      cases weightless with
      | inl empty => rw [empty, rowSlots]
      | inr element =>
          exact rowSlots_nil _ (fun place => slots_nil_of_weightless elementType place element) _ _
  | .qualified _ type, address, weightless => slots_nil_of_weightless type address weightless
  | .typeDeclRef body, address, weightless => slots_nil_of_weightless body address weightless
  | .record members, address, weightless => memberSlots_nil members 0 address weightless
  | .int _ _, _, weightless => weightless.elim
  | .float _, _, weightless => weightless.elim
  | .ptr _, _, weightless => weightless.elim
  | .bool, _, weightless => weightless.elim
  | .fn, _, _ => rfl
  | .other, _, _ => rfl

theorem memberSlots_nil : ∀ members offset address, AllWeightless members →
    memberSlots config members offset address = []
  | [], _, _, _ => rfl
  | member :: members, offset, address, weightless => by
      rw [memberSlots, slots_nil_of_weightless member _ weightless.1,
        memberSlots_nil members _ address weightless.2, List.append_nil]

end

/-- The slots of a member without alignment, and those of the others at words. -/
theorem slots_nil_or_aligned (type : DataType) (offset address : Nat)
    (aligned : config.wordSize.sizeInBytes ∣ address) :
    (∀ place, slots config type place = []) ∧ WordRows config type ∨
      config.wordSize.sizeInBytes ∣
        address + Packing.roundUp offset (extent config type).align := by
  by_cases hollow : (extent config type).align = 0
  · have weightless := weightless_of_hollow type ((hollow_iff config type).mpr hollow)
    exact Or.inl ⟨fun place => slots_nil_of_weightless type place weightless,
      wordRows_of_weightless type weightless⟩
  · exact Or.inr (Nat.dvd_add aligned (word_dvd_placed offset hollow))

/-! ## Rows of words keep the slots apart -/

theorem le_of_within {slot : Slot config.wordSize.bits} {lower upper index : Nat}
    (aligned : config.wordSize.sizeInBytes ∣ lower) (within : Within config lower upper slot)
    (held : slot.Holds index) : lower ≤ index * config.wordSize.sizeInBytes := by
  have first := Nat.mul_le_mul_right config.wordSize.sizeInBytes (within index held).1
  rwa [Nat.div_mul_cancel aligned] at first

/-- The words of members begin behind those before them. -/
theorem memberSlots_behind (members : List DataType) (offset address : Nat)
    (aligned : config.wordSize.sizeInBytes ∣ address) :
    ∀ slot ∈ memberSlots config members offset address, ∀ index, slot.Holds index →
      address + offset ≤ index * config.wordSize.sizeInBytes := by
  induction members generalizing offset with
  | nil => simp [memberSlots]
  | cons member members ih =>
      intro slot listed index held
      have up := Packing.le_roundUp offset (extent config member).align
      rw [memberSlots, List.mem_append] at listed
      cases listed with
      | inl here =>
          cases slots_nil_or_aligned member offset address aligned with
          | inl none => simp [none.1] at here
          | inr placed =>
              have := le_of_within placed (slots_within member _ slot here) held
              omega
      | inr later =>
          have := ih _ slot later index held
          omega

theorem rowSlots_disjoint {place : Nat → List (Slot config.wordSize.bits)} {stride : Nat}
    (within : ∀ address, ∀ slot ∈ place address, Within config address (address + stride) slot)
    (each : ∀ address, config.wordSize.sizeInBytes ∣ address →
      (place address).Pairwise Slot.Disjoint) (count address : Nat)
    (aligned : config.wordSize.sizeInBytes ∣ address)
    (words : count ≤ 1 ∨ config.wordSize.sizeInBytes ∣ stride) :
    (rowSlots place stride count address).Pairwise Slot.Disjoint := by
  induction count generalizing address with
  | zero => exact List.Pairwise.nil
  | succ count ih =>
      rw [rowSlots]
      cases count with
      | zero =>
          rw [rowSlots, List.append_nil]
          exact each address aligned
      | succ count =>
          have stride : config.wordSize.sizeInBytes ∣ stride := words.resolve_left (by omega)
          have next := Nat.dvd_add aligned stride
          rw [List.pairwise_append]
          refine ⟨each address aligned, ih _ next (Or.inr stride), ?_⟩
          intro before member after member'
          exact disjoint_of_within next (within address before member)
            (rowSlots_within within _ _ after member')

mutual

theorem slots_disjoint : ∀ (type : DataType) (address : Nat), WordRows config type →
    config.wordSize.sizeInBytes ∣ address → (slots config type address).Pairwise Slot.Disjoint
  | .int _ _, _, _, _ => List.pairwise_singleton _ _
  | .float _, _, _, _ => List.pairwise_singleton _ _
  | .ptr _, _, _, _ => List.pairwise_singleton _ _
  | .record members, address, rows, aligned => memberSlots_disjoint members 0 address rows aligned
  | .typeDeclRef body, address, rows, aligned => slots_disjoint body address rows aligned
  | .qualified _ type, address, rows, aligned => slots_disjoint type address rows aligned
  | .arr elementType size, address, rows, aligned => by
      rw [slots]
      cases rows with
      | inl empty =>
          rw [empty]
          exact List.Pairwise.nil
      | inr rows =>
          exact rowSlots_disjoint (slots_within elementType)
            (fun place => slots_disjoint elementType place rows.1) _ address aligned
            (rows.2.imp Nat.le_of_eq id)
  | .pack elementType width, address, rows, aligned => by
      rw [slots]
      cases rows with
      | inl empty =>
          rw [empty]
          exact List.Pairwise.nil
      | inr rows =>
          exact rowSlots_disjoint (slots_within elementType)
            (fun place => slots_disjoint elementType place rows.1) _ address aligned
            (rows.2.imp Nat.le_of_eq id)
  | .bool, _, _, _ => List.Pairwise.nil
  | .fn, _, _, _ => List.Pairwise.nil
  | .other, _, _, _ => List.Pairwise.nil

theorem memberSlots_disjoint : ∀ (members : List DataType) (offset address : Nat),
    AllWordRows config members → config.wordSize.sizeInBytes ∣ address →
      (memberSlots config members offset address).Pairwise Slot.Disjoint
  | [], _, _, _, _ => List.Pairwise.nil
  | member :: members, offset, address, rows, aligned => by
      have rest := memberSlots_disjoint members
        (Packing.roundUp offset (extent config member).align + (extent config member).size) address
        rows.2 aligned
      rw [memberSlots]
      cases slots_nil_or_aligned member offset address aligned with
      | inl none =>
          rw [none.1, List.nil_append]
          exact rest
      | inr placed =>
          rw [List.pairwise_append]
          refine ⟨slots_disjoint member _ rows.1 placed, rest, ?_⟩
          intro before here after later index held held'
          have first := (slots_within member _ before here index held).2
          have second := memberSlots_behind members _ address aligned after later index held'
          omega

end

/-! ## Slots apart only in rows of words -/

theorem ragged_row {element : DataType} {count : Nat}
    (rows : count = 0 ∨ WordRows config element ∧
      (count = 1 ∨ config.wordSize.sizeInBytes ∣ (extent config element).size))
    (ragged : ¬ config.wordSize.sizeInBytes ∣ (rowExtent count (extent config element)).size) :
    count = 1 ∧ WordRows config element ∧
      ¬ config.wordSize.sizeInBytes ∣ (extent config element).size := by
  cases rows with
  | inl empty =>
      rw [rowExtent, empty, Nat.zero_mul] at ragged
      exact absurd (Nat.dvd_zero _) ragged
  | inr rows =>
      have uneven : ¬ config.wordSize.sizeInBytes ∣ (extent config element).size := fun whole =>
        ragged (whole.mul_left count)
      exact ⟨rows.2.resolve_right uneven, rows.1, uneven⟩

/-- A type that fills no whole words is one narrow scalar at its address. -/
theorem ragged_narrow : ∀ (type : DataType), WordRows config type →
    ¬ config.wordSize.sizeInBytes ∣ (extent config type).size →
      (extent config type).size < config.wordSize.sizeInBytes ∧
        ∀ address, ∃ slot ∈ slots config type address,
          slot.Holds (address / config.wordSize.sizeInBytes)
  | .int width _, _, ragged => ⟨narrow_of_not_dvd width ragged, fun address =>
      ⟨_, List.mem_singleton_self _, Slot.holds_first (intSlot config width address)⟩⟩
  | .float width, _, ragged => by
      rw [extent, scalarExtent, ← floatToIntWidth_sizeInBytes] at ragged ⊢
      exact ⟨narrow_of_not_dvd _ ragged, fun address =>
        ⟨_, List.mem_singleton_self _, Slot.holds_first (intSlot config _ address)⟩⟩
  | .ptr _, _, ragged => ⟨narrow_of_not_dvd _ ragged, fun address =>
      ⟨_, List.mem_singleton_self _, Slot.holds_first (intSlot config _ address)⟩⟩
  | .bool, _, ragged => absurd (Nat.dvd_refl _) ragged
  | .record members, _, ragged => absurd (word_dvd_record_size members) ragged
  | .typeDeclRef body, rows, ragged => ragged_narrow body rows ragged
  | .qualified _ type, rows, ragged => ragged_narrow type rows ragged
  | .arr elementType size, rows, ragged => by
      obtain ⟨one, rows, ragged⟩ := ragged_row rows ragged
      have narrow := ragged_narrow elementType rows ragged
      rw [extent, rowExtent, one, Nat.one_mul]
      refine ⟨narrow.1, fun address => ?_⟩
      rw [slots, one, rowSlots, rowSlots, List.append_nil]
      exact narrow.2 address
  | .pack elementType width, rows, ragged => by
      obtain ⟨one, rows, ragged⟩ := ragged_row rows ragged
      have narrow := ragged_narrow elementType rows ragged
      rw [extent, rowExtent, one, Nat.one_mul]
      refine ⟨narrow.1, fun address => ?_⟩
      rw [slots, one, rowSlots, rowSlots, List.append_nil]
      exact narrow.2 address
  | .fn, _, ragged => absurd (Nat.dvd_zero _) ragged
  | .other, _, ragged => absurd (Nat.dvd_zero _) ragged

theorem wordRow_of_disjoint {element : DataType} {count address : Nat}
    (each : (slots config element address).Pairwise Slot.Disjoint → WordRows config element)
    (aligned : config.wordSize.sizeInBytes ∣ address)
    (disjoint : (rowSlots (slots config element) (extent config element).size count
      address).Pairwise Slot.Disjoint) :
    count = 0 ∨ WordRows config element ∧
      (count = 1 ∨ config.wordSize.sizeInBytes ∣ (extent config element).size) := by
  cases count with
  | zero => exact Or.inl rfl
  | succ count =>
      rw [rowSlots, List.pairwise_append] at disjoint
      have rows := each disjoint.1
      refine Or.inr ⟨rows, ?_⟩
      cases count with
      | zero => exact Or.inl rfl
      | succ count =>
          right
          by_contra ragged
          obtain ⟨narrow, scalar⟩ := ragged_narrow element rows ragged
          obtain ⟨first, listed, held⟩ := scalar address
          obtain ⟨second, listed', held'⟩ := scalar (address + (extent config element).size)
          -- both elements lie in the word of the first
          have same : (address + (extent config element).size) / config.wordSize.sizeInBytes =
              address / config.wordSize.sizeInBytes := by
            obtain ⟨k, rfl⟩ := aligned
            rw [Nat.mul_add_div config.wordSize.sizeInBytes_pos, Nat.div_eq_of_lt narrow,
              Nat.add_zero, Nat.mul_div_cancel_left _ config.wordSize.sizeInBytes_pos]
          rw [same] at held'
          apply disjoint.2.2 first listed second _ _ held held'
          rw [rowSlots]
          exact List.mem_append_left _ listed'

mutual

theorem wordRows_of_disjoint : ∀ (type : DataType) (address : Nat),
    config.wordSize.sizeInBytes ∣ address → (slots config type address).Pairwise Slot.Disjoint →
      WordRows config type
  | .arr elementType _, address, aligned, disjoint =>
      wordRow_of_disjoint (wordRows_of_disjoint elementType address aligned) aligned disjoint
  | .pack elementType _, address, aligned, disjoint =>
      wordRow_of_disjoint (wordRows_of_disjoint elementType address aligned) aligned disjoint
  | .record members, address, aligned, disjoint =>
      allWordRows_of_disjoint members 0 address aligned disjoint
  | .typeDeclRef body, address, aligned, disjoint =>
      wordRows_of_disjoint body address aligned disjoint
  | .qualified _ type, address, aligned, disjoint =>
      wordRows_of_disjoint type address aligned disjoint
  | .int _ _, _, _, _ => trivial
  | .float _, _, _, _ => trivial
  | .ptr _, _, _, _ => trivial
  | .bool, _, _, _ => trivial
  | .fn, _, _, _ => trivial
  | .other, _, _, _ => trivial

theorem allWordRows_of_disjoint : ∀ (members : List DataType) (offset address : Nat),
    config.wordSize.sizeInBytes ∣ address →
    (memberSlots config members offset address).Pairwise Slot.Disjoint →
      AllWordRows config members
  | [], _, _, _, _ => trivial
  | member :: members, offset, address, aligned, disjoint => by
      rw [memberSlots, List.pairwise_append] at disjoint
      refine ⟨?_, allWordRows_of_disjoint members _ address aligned disjoint.2.1⟩
      cases slots_nil_or_aligned member offset address aligned with
      | inl none => exact none.2
      | inr placed => exact wordRows_of_disjoint member _ placed disjoint.1

end

/-! ## The first word -/

mutual

/-- Whatever takes bytes has a scalar in the word of its address. -/
theorem exists_holds_first : ∀ (type : DataType), Emulated type → Plain type → ¬ Weightless type →
    ∀ address, ∃ slot ∈ slots config type address,
      slot.Holds (address / config.wordSize.sizeInBytes)
  | .int width _, _, _, _, address =>
      ⟨_, List.mem_singleton_self _, Slot.holds_first (intSlot config width address)⟩
  | .float _, _, _, _, address =>
      ⟨_, List.mem_singleton_self _, Slot.holds_first (intSlot config _ address)⟩
  | .ptr _, _, _, _, address =>
      ⟨_, List.mem_singleton_self _, Slot.holds_first (intSlot config _ address)⟩
  | .record members, emulated, plain, heavy, address =>
      exists_holds_first_member members emulated plain heavy address
  | .typeDeclRef body, emulated, plain, heavy, address =>
      exists_holds_first body emulated plain.2 heavy address
  | .arr elementType size, emulated, plain, heavy, address => by
      obtain ⟨occupied, heavy⟩ := not_or.mp heavy
      obtain ⟨count, succ⟩ := Nat.exists_eq_succ_of_ne_zero occupied
      obtain ⟨slot, listed, held⟩ :=
        exists_holds_first elementType emulated.2 (plain.resolve_left occupied) heavy address
      refine ⟨slot, ?_, held⟩
      rw [slots, succ, rowSlots]
      exact List.mem_append_left _ listed
  | .pack elementType width, emulated, plain, heavy, address => by
      obtain ⟨occupied, heavy⟩ := not_or.mp heavy
      obtain ⟨count, succ⟩ := Nat.exists_eq_succ_of_ne_zero occupied
      obtain ⟨slot, listed, held⟩ :=
        exists_holds_first elementType emulated (plain.resolve_left occupied) heavy address
      refine ⟨slot, ?_, held⟩
      rw [slots, succ, rowSlots]
      exact List.mem_append_left _ listed

theorem exists_holds_first_member : ∀ (members : List DataType), AllEmulated members →
    AllPlain members → ¬ AllWeightless members →
    ∀ address, ∃ slot ∈ memberSlots config members 0 address,
      slot.Holds (address / config.wordSize.sizeInBytes)
  | [], _, _, heavy, _ => absurd trivial heavy
  | member :: members, emulated, plain, heavy, address => by
      rw [memberSlots, Packing.roundUp_zero, Nat.add_zero, Nat.zero_add]
      by_cases weightless : Weightless member
      · rw [(weightless_iff config member).mp weightless]
        obtain ⟨slot, listed, held⟩ := exists_holds_first_member members emulated.2 plain.2
          (fun rest => heavy ⟨weightless, rest⟩) address
        exact ⟨slot, List.mem_append_right _ listed, held⟩
      · obtain ⟨slot, listed, held⟩ :=
          exists_holds_first member emulated.1 plain.1 weightless address
        exact ⟨slot, List.mem_append_left _ listed, held⟩

end

end Geometry

end Shady
