import Shady.Ir.MemoryLayout

/-!
# The layout law

The extent of a type is its layout in unbounded arithmetic, records being packed. Where
nothing in a type reaches `2 ^ 64` bytes the layout is the extent. The law then holds
except where something narrower than a word is laid out in a row, and behind an empty
record.
-/

set_option autoImplicit false

namespace Shady

open Packing (Extent)

/-! ## Extents -/

section Extents
variable (config : PointerModel)

def scalarExtent (bytes : Nat) : Extent := ⟨bytes, max bytes config.wordSize.sizeInBytes⟩

/-- So many of them in a row. -/
def rowExtent (count : Nat) (element : Extent) : Extent := ⟨count * element.size, element.align⟩

mutual

def extent : DataType → Extent
  | .ptr _ => scalarExtent config config.ptrSize.sizeInBytes
  | .int width _ => scalarExtent config width.sizeInBytes
  | .float width => scalarExtent config width.sizeInBytes
  | .bool => scalarExtent config config.wordSize.sizeInBytes
  | .arr elementType size => rowExtent ((size.map literalCount).getD 0) (extent elementType)
  | .pack elementType width => rowExtent width.toNat (extent elementType)
  | .qualified _ type => extent type
  | .typeDeclRef body => extent body
  | .record members => Packing.pack (extents members)
  | .fn => ⟨0, 0⟩
  | .other => ⟨0, 0⟩

def extents : List DataType → List Extent
  | [] => []
  | member :: members => extent member :: extents members

end

theorem extents_eq_map (members : List DataType) :
    extents config members = members.map (extent config) := by
  induction members with
  | nil => rfl
  | cons member members ih => rw [extents, ih, List.map_cons]

mutual

/-- Nothing in the type takes `2 ^ 64` bytes. -/
def Fits : DataType → Prop
  | .arr elementType size =>
      Fits elementType ∧
        (rowExtent ((size.map literalCount).getD 0) (extent config elementType)).size < 2 ^ 64
  | .pack elementType width =>
      Fits elementType ∧ (rowExtent width.toNat (extent config elementType)).size < 2 ^ 64
  | .qualified _ type => Fits type
  | .typeDeclRef body => Fits body
  | .record members =>
      FitsAll members ∧ (Packing.pack (extents config members)).size < 2 ^ 64
  | _ => True

def FitsAll : List DataType → Prop
  | [] => True
  | member :: members => Fits member ∧ FitsAll members

end

end Extents

/-! ## Alignments are powers of two -/

/-- An alignment that divides eight, or none. -/
def AlignOk (align : Nat) : Prop := align = 0 ∨ align ∣ 8

theorem scalarAlign_dvd (config : PointerModel) {bytes : Nat} (power : bytes ∣ 8) :
    max bytes config.wordSize.sizeInBytes ∣ 8 := by
  rcases Nat.le_total bytes config.wordSize.sizeInBytes with le | le
  · rw [Nat.max_eq_right le]
    cases config.wordSize <;> decide
  · rwa [Nat.max_eq_left le]

theorem IntSizes.sizeInBytes_dvd (width : IntSizes) : width.sizeInBytes ∣ 8 := by
  cases width <;> decide

theorem FloatSizes.sizeInBytes_dvd (width : FloatSizes) : width.sizeInBytes ∣ 8 := by
  cases width <;> decide

theorem IntSizes.sizeInBytes_pos (width : IntSizes) : 0 < width.sizeInBytes := by
  cases width <;> decide

theorem FloatSizes.sizeInBytes_pos (width : FloatSizes) : 0 < width.sizeInBytes := by
  cases width <;> decide

theorem pack_alignOk {es : List Extent} (all : ∀ e ∈ es, AlignOk e.align) :
    AlignOk (Packing.maxAlign es) := by
  cases Packing.maxAlign_mem es with
  | inl zero => exact Or.inl zero
  | inr some =>
      obtain ⟨e, member, equal⟩ := some
      exact equal ▸ all e member

mutual

theorem extent_alignOk (config : PointerModel) : ∀ type, AlignOk (extent config type).align
  | .ptr _ => Or.inr (scalarAlign_dvd config (IntSizes.sizeInBytes_dvd _))
  | .int width _ => Or.inr (scalarAlign_dvd config width.sizeInBytes_dvd)
  | .float width => Or.inr (scalarAlign_dvd config width.sizeInBytes_dvd)
  | .bool => Or.inr (scalarAlign_dvd config (IntSizes.sizeInBytes_dvd _))
  | .arr elementType _ => extent_alignOk config elementType
  | .pack elementType _ => extent_alignOk config elementType
  | .qualified _ type => extent_alignOk config type
  | .typeDeclRef body => extent_alignOk config body
  | .record members => pack_alignOk (extents_alignOk config members)
  | .fn => Or.inl rfl
  | .other => Or.inl rfl

theorem extents_alignOk (config : PointerModel) :
    ∀ members, ∀ e ∈ extents config members, AlignOk e.align
  | [] => by simp [extents]
  | member :: members => by
      rw [extents, List.forall_mem_cons]
      exact ⟨extent_alignOk config member, extents_alignOk config members⟩

end

/-! ## The layout is the extent -/

theorem roundUp_eq {a b : Nat} (ok : AlignOk b) (below : Packing.roundUp a b < 2 ^ 64) :
    roundUp a b = Packing.roundUp a b := by
  unfold roundUp
  by_cases zero : b = 0
  · rw [if_pos zero, zero, Packing.roundUp_align_zero]
  · have multiple : b ∣ 2 ^ 64 := (ok.resolve_left zero).trans (by decide)
    have sum := Packing.add_lt_of_roundUp_lt multiple zero below
    rw [Packing.roundUp, if_neg zero] at below ⊢
    rw [if_neg zero]
    simp only [sizeT]
    rw [Nat.mod_eq_of_lt sum, Nat.mod_eq_of_lt below]

def TypeMemLayout.of (e : Extent) : TypeMemLayout := ⟨e.size, e.align⟩

def FieldLayout.of (placed : Nat × Extent) : FieldLayout :=
  ⟨TypeMemLayout.of placed.2, placed.1⟩

mutual

theorem getMemLayout_eq (config : PointerModel) : ∀ (type : DataType) (layout : TypeMemLayout),
    Fits config type → getMemLayout config type = some layout →
      layout = TypeMemLayout.of (extent config type)
  | .ptr addressSpace, layout, _, found => by
      cases addressSpace <;> simp_all [getMemLayout, scalarLayout, TypeMemLayout.of, extent, scalarExtent]
  | .int width _, layout, _, found => by
      simp only [getMemLayout, Option.some.injEq] at found
      exact found.symm
  | .float width, layout, _, found => by
      simp only [getMemLayout, Option.some.injEq] at found
      exact found.symm
  | .bool, layout, _, found => by
      simp only [getMemLayout, Option.some.injEq] at found
      rw [← found, TypeMemLayout.of, extent, scalarExtent, Nat.max_self]
  | .arr elementType size, layout, fits, found => by
      simp only [getMemLayout, Option.bind_eq_bind, Option.bind_eq_some_iff, Option.some.injEq]
        at found
      obtain ⟨literal, size, element, inner, whole⟩ := found
      have elementEq := getMemLayout_eq config elementType element fits.1 inner
      have below := fits.2
      rw [← whole, elementEq]
      rw [size] at below ⊢
      simp only [rowExtent, Option.map_some, Option.getD_some] at below
      simp only [TypeMemLayout.of, extent, rowExtent, sizeT, Option.map_some, Option.getD_some]
      rw [Nat.mod_eq_of_lt below]
  | .pack elementType width, layout, fits, found => by
      simp only [getMemLayout, Option.bind_eq_bind, Option.bind_eq_some_iff, Option.some.injEq]
        at found
      obtain ⟨element, inner, whole⟩ := found
      have elementEq := getMemLayout_eq config elementType element fits.1 inner
      have below := fits.2
      rw [← whole, elementEq]
      simp only [rowExtent] at below
      simp only [TypeMemLayout.of, extent, rowExtent, sizeT]
      rw [Nat.mod_eq_of_lt below]
  | .qualified _ type, layout, fits, found => getMemLayout_eq config type layout fits found
  | .typeDeclRef body, layout, fits, found => getMemLayout_eq config body layout fits found
  | .record members, layout, fits, found => by
      simp only [getMemLayout, Option.bind_eq_bind, Option.bind_eq_some_iff, Option.some.injEq]
        at found
      obtain ⟨⟨fields, offset, maxAlign⟩, ran, whole⟩ := found
      have below := fits.2
      have finished : Packing.finish 0 (extents config members) < 2 ^ 64 :=
        Nat.lt_of_le_of_lt (Packing.le_roundUp _ _) below
      have final := recordFields_eq config members 0 0 _ fits.1 finished ran
      simp only [Prod.mk.injEq, Nat.zero_max] at final
      obtain ⟨-, rfl, rfl⟩ := final
      rw [← whole, roundUp_eq (pack_alignOk (extents_alignOk config members)) below]
      rfl
  | .fn, _, _, found => by simp [getMemLayout] at found
  | .other, _, _, found => by simp [getMemLayout] at found

/-- The loop over the members places their extents. -/
theorem recordFields_eq (config : PointerModel) : ∀ (members : List DataType) (start acc : Nat)
    (result : List FieldLayout × Nat × Nat), FitsAll config members →
    Packing.finish start (extents config members) < 2 ^ 64 →
    recordFields config members start acc = some result →
      result = ((Packing.place start (extents config members)).map FieldLayout.of,
        Packing.finish start (extents config members),
        max acc (Packing.maxAlign (extents config members)))
  | [], start, acc, result, _, _, ran => by
      simp only [recordFields, Option.some.injEq] at ran
      rw [← ran]
      simp [extents, Packing.place, Packing.finish, Packing.maxAlign]
  | member :: members, start, acc, result, fits, below, ran => by
      simp only [recordFields, Option.bind_eq_bind, Option.bind_eq_some_iff, Option.some.injEq]
        at ran
      obtain ⟨layout, inner, ⟨fields, final⟩, rest, whole⟩ := ran
      have layoutEq := getMemLayout_eq config member layout fits.1 inner
      rw [extents, Packing.finish] at below
      have step : Packing.roundUp start (extent config member).align + (extent config member).size <
          2 ^ 64 := Nat.lt_of_le_of_lt (Packing.start_le_finish _ _) below
      have rounded : roundUp start layout.alignmentInBytes =
          Packing.roundUp start (extent config member).align := by
        rw [layoutEq]
        exact roundUp_eq (extent_alignOk config member)
          (Nat.lt_of_le_of_lt (Nat.le_add_right _ _) step)
      have next : sizeT (roundUp start layout.alignmentInBytes + layout.sizeInBytes) =
          Packing.roundUp start (extent config member).align + (extent config member).size := by
        rw [rounded, layoutEq, sizeT]
        exact Nat.mod_eq_of_lt step
      have larger : (if layout.alignmentInBytes > acc then layout.alignmentInBytes else acc) =
          max acc (extent config member).align := by
        rw [layoutEq, TypeMemLayout.of]
        dsimp only
        split <;> omega
      rw [next, larger] at rest
      have later := recordFields_eq config members _ _ _ fits.2 below rest
      simp only [Prod.mk.injEq] at later
      obtain ⟨fieldsEq, finalEq⟩ := later
      rw [← whole, fieldsEq, finalEq, rounded, layoutEq]
      simp only [extents, Packing.place, Packing.finish, Packing.maxAlign, List.map_cons,
        FieldLayout.of, TypeMemLayout.of, Nat.max_assoc]

end

/-- The layout of a record with its fields. -/
theorem getRecordLayout_eq {config : PointerModel} {members : List DataType}
    {layout : TypeMemLayout} {fields : List FieldLayout} (fits : Fits config (.record members))
    (found : getRecordLayout config members = some (layout, fields)) :
    fields = (Packing.place 0 (extents config members)).map FieldLayout.of ∧
      layout = TypeMemLayout.of (extent config (.record members)) := by
  simp only [getRecordLayout, Option.bind_eq_bind, Option.bind_eq_some_iff, Option.some.injEq,
    Prod.mk.injEq] at found
  obtain ⟨⟨placed, offset, maxAlign⟩, ran, whole, rfl⟩ := found
  have finished : Packing.finish 0 (extents config members) < 2 ^ 64 :=
    Nat.lt_of_le_of_lt (Packing.le_roundUp _ _) fits.2
  have final := recordFields_eq config members 0 0 _ fits.1 finished ran
  simp only [Prod.mk.injEq, Nat.zero_max] at final
  obtain ⟨rfl, rfl, rfl⟩ := final
  refine ⟨rfl, ?_⟩
  rw [← whole, roundUp_eq (pack_alignOk (extents_alignOk config members)) fits.2]
  rfl

/-! ## Types without storage -/

mutual

/-- The type has no alignment: nothing but empty records. -/
def Hollow : DataType → Prop
  | .arr elementType _ => Hollow elementType
  | .pack elementType _ => Hollow elementType
  | .qualified _ type => Hollow type
  | .typeDeclRef body => Hollow body
  | .record members => AllHollow members
  | .fn => True
  | .other => True
  | _ => False

def AllHollow : List DataType → Prop
  | [] => True
  | member :: members => Hollow member ∧ AllHollow members

end

mutual

/-- The type takes no bytes. -/
def Weightless : DataType → Prop
  | .arr elementType size => (size.map literalCount).getD 0 = 0 ∨ Weightless elementType
  | .pack elementType width => width.toNat = 0 ∨ Weightless elementType
  | .qualified _ type => Weightless type
  | .typeDeclRef body => Weightless body
  | .record members => AllWeightless members
  | .fn => True
  | .other => True
  | _ => False

def AllWeightless : List DataType → Prop
  | [] => True
  | member :: members => Weightless member ∧ AllWeightless members

end

theorem scalarExtent_align_ne_zero {config : PointerModel} {bytes : Nat} :
    (scalarExtent config bytes).align ≠ 0 := by
  have := config.wordSize.sizeInBytes_pos
  simp only [scalarExtent]
  omega

mutual

theorem hollow_iff (config : PointerModel) :
    ∀ type, Hollow type ↔ (extent config type).align = 0
  | .ptr _ => ⟨False.elim, fun zero => scalarExtent_align_ne_zero zero⟩
  | .int _ _ => ⟨False.elim, fun zero => scalarExtent_align_ne_zero zero⟩
  | .float _ => ⟨False.elim, fun zero => scalarExtent_align_ne_zero zero⟩
  | .bool => ⟨False.elim, fun zero => scalarExtent_align_ne_zero zero⟩
  | .arr elementType _ => hollow_iff config elementType
  | .pack elementType _ => hollow_iff config elementType
  | .qualified _ type => hollow_iff config type
  | .typeDeclRef body => hollow_iff config body
  | .record members =>
      (allHollow_iff config members).trans (Packing.maxAlign_zero_iff _).symm
  | .fn => ⟨fun _ => rfl, fun _ => trivial⟩
  | .other => ⟨fun _ => rfl, fun _ => trivial⟩

theorem allHollow_iff (config : PointerModel) :
    ∀ members, AllHollow members ↔ ∀ e ∈ extents config members, e.align = 0
  | [] => by simp [AllHollow, extents]
  | member :: members => by
      rw [extents, List.forall_mem_cons, AllHollow, hollow_iff config member,
        allHollow_iff config members]

end

mutual

theorem weightless_iff (config : PointerModel) :
    ∀ type, Weightless type ↔ (extent config type).size = 0
  | .ptr _ => ⟨False.elim, fun zero => absurd zero (IntSizes.sizeInBytes_pos _).ne'⟩
  | .int width _ => ⟨False.elim, fun zero => absurd zero width.sizeInBytes_pos.ne'⟩
  | .float width => ⟨False.elim, fun zero => absurd zero width.sizeInBytes_pos.ne'⟩
  | .bool => ⟨False.elim, fun zero => absurd zero (IntSizes.sizeInBytes_pos _).ne'⟩
  | .arr elementType size => by
      rw [Weightless, weightless_iff config elementType, extent, rowExtent, Nat.mul_eq_zero]
  | .pack elementType width => by
      rw [Weightless, weightless_iff config elementType, extent, rowExtent, Nat.mul_eq_zero]
  | .qualified _ type => weightless_iff config type
  | .typeDeclRef body => weightless_iff config body
  | .record members =>
      (allWeightless_iff config members).trans (Packing.pack_size_zero_iff _).symm
  | .fn => ⟨fun _ => rfl, fun _ => trivial⟩
  | .other => ⟨fun _ => rfl, fun _ => trivial⟩

theorem allWeightless_iff (config : PointerModel) :
    ∀ members, AllWeightless members ↔ ∀ e ∈ extents config members, e.size = 0
  | [] => by simp [AllWeightless, extents]
  | member :: members => by
      rw [extents, List.forall_mem_cons, AllWeightless, weightless_iff config member,
        allWeightless_iff config members]

end

mutual

theorem weightless_of_hollow : ∀ type, Hollow type → Weightless type
  | .arr elementType _, hollow => Or.inr (weightless_of_hollow elementType hollow)
  | .pack elementType _, hollow => Or.inr (weightless_of_hollow elementType hollow)
  | .qualified _ type, hollow => weightless_of_hollow type hollow
  | .typeDeclRef body, hollow => weightless_of_hollow body hollow
  | .record members, hollow => allWeightless_of_allHollow members hollow
  | .fn, _ => trivial
  | .other, _ => trivial
  | .ptr _, hollow => hollow.elim
  | .int _ _, hollow => hollow.elim
  | .float _, hollow => hollow.elim
  | .bool, hollow => hollow.elim

theorem allWeightless_of_allHollow : ∀ members, AllHollow members → AllWeightless members
  | [], _ => trivial
  | member :: members, hollow =>
      ⟨weightless_of_hollow member hollow.1, allWeightless_of_allHollow members hollow.2⟩

end

/-- What has no alignment has no size either. -/
theorem hollow_sized (config : PointerModel) (members : List DataType) :
    ∀ e ∈ extents config members, e.align = 0 → e.size = 0 := by
  intro e member zero
  rw [extents_eq_map, List.mem_map] at member
  obtain ⟨type, -, rfl⟩ := member
  exact (weightless_iff config type).mp
    (weightless_of_hollow type ((hollow_iff config type).mpr zero))

/-! ## The law and where it holds -/

/-- What a qualifier or a name stands for. -/
def DataType.stripped : DataType → DataType
  | .qualified _ type => type.stripped
  | .typeDeclRef body => body.stripped
  | type => type

/-- The element type and the count of an array or pack. -/
def DataType.row : DataType → Option (DataType × Nat)
  | .arr elementType size => size.map fun size => (elementType, literalCount size)
  | .pack elementType width => some (elementType, width.toNat)
  | _ => none

/-- The contract of `shd_get_mem_layout` and `shd_get_record_layout` at one type. -/
structure LayoutLaw (config : PointerModel) (type : DataType) (layout : TypeMemLayout) : Prop where
  divides : layout.alignmentInBytes ∣ layout.sizeInBytes
  fields : ∀ members recordLayout fields, type.stripped = .record members →
    getRecordLayout config members = some (recordLayout, fields) →
    (∀ f ∈ fields, f.memLayout.alignmentInBytes ∣ f.offsetInBytes) ∧
      fields.Pairwise (fun f g => f.offsetInBytes + f.memLayout.sizeInBytes ≤ g.offsetInBytes) ∧
      ∀ f ∈ fields, f.offsetInBytes + f.memLayout.sizeInBytes ≤ layout.sizeInBytes
  elements : ∀ elementType count element, type.stripped.row = some (elementType, count) →
    getMemLayout config elementType = some element → ∀ i < count,
      element.alignmentInBytes ∣ i * element.sizeInBytes ∧
        (i + 1) * element.sizeInBytes ≤ layout.sizeInBytes

section Regular
variable (config : PointerModel)

/-- So many of them in a row fill whole multiples of their alignment. -/
def Divides : Nat → DataType → Prop
  | count, .ptr _ =>
      max config.ptrSize.sizeInBytes config.wordSize.sizeInBytes ∣
        count * config.ptrSize.sizeInBytes
  | count, .int width _ =>
      max width.sizeInBytes config.wordSize.sizeInBytes ∣ count * width.sizeInBytes
  | count, .float width =>
      max width.sizeInBytes config.wordSize.sizeInBytes ∣ count * width.sizeInBytes
  | count, .arr elementType size =>
      Divides (count * (size.map literalCount).getD 0) elementType
  | count, .pack elementType width => Divides (count * width.toNat) elementType
  | count, .qualified _ type => Divides count type
  | count, .typeDeclRef body => Divides count body
  | _, _ => True

/-- Scalars are at least a word wide, elements of a row fill their alignment, and in a
record nothing that takes bytes comes before a member without alignment. -/
def Regular : DataType → Prop
  | .ptr _ => config.wordSize.sizeInBytes ≤ config.ptrSize.sizeInBytes
  | .int width _ => config.wordSize.sizeInBytes ≤ width.sizeInBytes
  | .float width => config.wordSize.sizeInBytes ≤ width.sizeInBytes
  | .arr elementType size => (size.map literalCount).getD 0 = 0 ∨ Divides config 1 elementType
  | .pack elementType width => width.toNat = 0 ∨ Divides config 1 elementType
  | .record members => ∀ before member after, members = before ++ member :: after →
      Hollow member → AllWeightless before
  | .qualified _ type => Regular type
  | .typeDeclRef body => Regular body
  | _ => True

end Regular

theorem divides_iff (config : PointerModel) : ∀ type count,
    Divides config count type ↔ (extent config type).align ∣ count * (extent config type).size
  | .ptr _, _ => Iff.rfl
  | .int _ _, _ => Iff.rfl
  | .float _, _ => Iff.rfl
  | .bool, count => by simp [Divides, extent, scalarExtent]
  | .arr elementType size, count => by
      rw [Divides, divides_iff config elementType, extent, rowExtent, Nat.mul_assoc]
  | .pack elementType width, count => by
      rw [Divides, divides_iff config elementType, extent, rowExtent, Nat.mul_assoc]
  | .qualified _ type, count => divides_iff config type count
  | .typeDeclRef body, count => divides_iff config body count
  | .record members, count => by
      refine ⟨fun _ => ?_, fun _ => trivial⟩
      apply Dvd.dvd.mul_left
      exact Packing.pack_align_dvd_size (hollow_sized config members)
  | .fn, _ => by simp [Divides, extent]
  | .other, _ => by simp [Divides, extent]

section Exact
variable {config : PointerModel}

theorem layoutLaw_congr (type renamed : DataType) {layout : TypeMemLayout}
    (same : renamed.stripped = type.stripped) :
    LayoutLaw config renamed layout ↔ LayoutLaw config type layout := by
  constructor
  · intro law
    exact ⟨law.divides, by rw [← same]; exact law.fields, by rw [← same]; exact law.elements⟩
  · intro law
    exact ⟨law.divides, by rw [same]; exact law.fields, by rw [same]; exact law.elements⟩

/-- A type that is neither a record nor a row only has to be aligned. -/
theorem layoutLaw_scalar {type : DataType} {layout : TypeMemLayout}
    (noRecord : ∀ members, type.stripped ≠ .record members) (noRow : type.stripped.row = none) :
    LayoutLaw config type layout ↔ layout.alignmentInBytes ∣ layout.sizeInBytes := by
  refine ⟨LayoutLaw.divides, fun divides => ⟨divides, ?_, ?_⟩⟩
  · intro members _ _ isRecord
    exact absurd isRecord (noRecord members)
  · intro _ _ _ isRow
    rw [noRow] at isRow
    cases isRow

/-- A width is a multiple of its alignment when it is at least that of a word. -/
theorem scalar_divides_iff {bytes : Nat} (power : bytes ∣ 8) :
    max bytes config.wordSize.sizeInBytes ∣ bytes ↔ config.wordSize.sizeInBytes ≤ bytes := by
  have positive : 0 < bytes := Nat.pos_of_dvd_of_pos power (by decide)
  constructor
  · intro divides
    have := Nat.le_of_dvd positive divides
    omega
  · intro wide
    rw [Nat.max_eq_left wide]

/-- The elements of a row are aligned, and inside, when each of them fills its alignment. -/
theorem row_law {element : Extent} {count : Nat} :
    (element.align ∣ count * element.size ∧ ∀ i < count, element.align ∣ i * element.size ∧
        (i + 1) * element.size ≤ count * element.size) ↔
      count = 0 ∨ element.align ∣ element.size := by
  constructor
  · intro law
    obtain ⟨whole, each⟩ := law
    match count with
    | 0 => exact Or.inl rfl
    | 1 => exact Or.inr (by simpa using whole)
    | count + 2 => exact Or.inr (by simpa using (each 1 (by omega)).1)
  · intro either
    have bound : ∀ i < count, (i + 1) * element.size ≤ count * element.size :=
      fun i inside => Nat.mul_le_mul_right _ inside
    cases either with
    | inl none => simp [none]
    | inr divides =>
        exact ⟨divides.mul_left count, fun i inside => ⟨divides.mul_left i, bound i inside⟩⟩

theorem layoutLaw_row {type elementType : DataType} {count : Nat} {element layout : TypeMemLayout}
    (isRow : type.stripped.row = some (elementType, count)) (fits : Fits config elementType)
    (found : getMemLayout config elementType = some element)
    (whole : layout = TypeMemLayout.of (rowExtent count (extent config elementType))) :
    LayoutLaw config type layout ↔ count = 0 ∨ Divides config 1 elementType := by
  have elementEq := getMemLayout_eq config elementType element fits found
  rw [divides_iff, Nat.one_mul, ← row_law, whole]
  constructor
  · intro law
    refine ⟨law.divides, fun i inside => ?_⟩
    have each := law.elements elementType count element isRow found i inside
    rw [elementEq] at each
    exact each
  · intro law
    refine ⟨law.1, ?_, ?_⟩
    · intro members _ _ isRecord
      rw [isRecord] at isRow
      cases isRow
    · intro elementType' count' element' isRow' found' i inside
      rw [isRow] at isRow'
      cases isRow'
      rw [found] at found'
      cases found'
      rw [elementEq]
      exact law.2 i inside

/-- The fields of a record are aligned, apart and inside, when each member without
alignment comes first. -/
theorem layoutLaw_record {members : List DataType} {layout : TypeMemLayout}
    (fits : Fits config (.record members))
    (found : getMemLayout config (.record members) = some layout) :
    LayoutLaw config (.record members) layout ↔ Regular config (.record members) := by
  have whole := getMemLayout_eq config _ layout fits found
  have ran : ∃ recordLayout fields,
      getRecordLayout config members = some (recordLayout, fields) := by
    simp only [getMemLayout, Option.bind_eq_bind, Option.bind_eq_some_iff] at found
    obtain ⟨⟨fields, offset, maxAlign⟩, ran, -⟩ := found
    exact ⟨_, fields, by simp only [getRecordLayout, ran, Option.bind_eq_bind, Option.bind_some]; rfl⟩
  obtain ⟨recordLayout, fields, ran⟩ := ran
  have placed := (getRecordLayout_eq fits ran).1
  constructor
  · intro law before member after split hollow
    obtain ⟨aligned, -, -⟩ := law.fields members recordLayout fields rfl ran
    rw [allWeightless_iff config, ← Packing.finish_zero_iff]
    have listed : (Packing.roundUp (Packing.finish 0 (extents config before))
        (extent config member).align, extent config member) ∈
        Packing.place 0 (extents config members) := by
      rw [Packing.mem_place, split]
      refine ⟨extents config before, extents config after, ?_, rfl⟩
      simp [extents_eq_map]
    have multiple := aligned _ (placed ▸ List.mem_map_of_mem listed)
    simp only [FieldLayout.of, TypeMemLayout.of] at multiple
    rw [(hollow_iff config member).mp hollow, Packing.roundUp_align_zero] at multiple
    exact Nat.zero_dvd.mp multiple
  · intro regular
    have hollowFirst : ∀ p ∈ Packing.place 0 (extents config members), p.2.align ∣ p.1 := by
      intro p listed
      by_cases zero : p.2.align = 0
      · obtain ⟨before, after, split, offset⟩ := Packing.mem_place.mp listed
        rw [extents_eq_map, List.map_eq_append_iff] at split
        obtain ⟨front, back, membersEq, frontEq, backEq⟩ := split
        obtain ⟨member, rest, rfl, memberEq, -⟩ := List.map_eq_cons_iff.mp backEq
        have hollow := (hollow_iff config member).mpr (memberEq ▸ zero)
        have light := (allWeightless_iff config front).mp (regular front member rest membersEq hollow)
        rw [extents_eq_map, frontEq] at light
        rw [offset, zero, Packing.roundUp_align_zero, (Packing.finish_zero_iff _).mpr light]
      · exact Packing.place_aligned 0 _ p listed zero
    refine ⟨?_, ?_, ?_⟩
    · rw [whole]
      exact Packing.pack_align_dvd_size (hollow_sized config members)
    · intro members' recordLayout' fields' isRecord ran'
      cases isRecord
      rw [ran] at ran'
      cases ran'
      rw [placed, List.forall_mem_map, List.forall_mem_map, List.pairwise_map]
      refine ⟨hollowFirst, Packing.place_pairwise 0 _, fun p listed => ?_⟩
      rw [whole]
      exact Nat.le_trans (Packing.place_within 0 _ p listed).2 (Packing.le_roundUp _ _)
    · intro _ _ _ isRow
      cases isRow

/-- The law holds at a type exactly when the type is regular, as long as nothing in it
takes `2 ^ 64` bytes. -/
theorem layoutLaw_iff_regular (config : PointerModel) : ∀ (type : DataType)
    (layout : TypeMemLayout), Fits config type → getMemLayout config type = some layout →
      (LayoutLaw config type layout ↔ Regular config type)
  | .qualified isUniform type, layout, fits, found =>
      (layoutLaw_congr type (.qualified isUniform type) rfl).trans
        (layoutLaw_iff_regular config type layout fits found)
  | .typeDeclRef body, layout, fits, found =>
      (layoutLaw_congr body (.typeDeclRef body) rfl).trans
        (layoutLaw_iff_regular config body layout fits found)
  | .record members, layout, fits, found => layoutLaw_record fits found
  | .arr elementType none, layout, fits, found => by simp [getMemLayout] at found
  | .arr elementType (some size), layout, fits, found => by
      have whole := getMemLayout_eq config _ layout fits found
      simp only [getMemLayout, Option.bind_eq_bind, Option.bind_some, Option.bind_eq_some_iff]
        at found
      obtain ⟨element, inner, -⟩ := found
      exact layoutLaw_row rfl fits.1 inner whole
  | .pack elementType width, layout, fits, found => by
      have whole := getMemLayout_eq config _ layout fits found
      simp only [getMemLayout, Option.bind_eq_bind, Option.bind_eq_some_iff] at found
      obtain ⟨element, inner, -⟩ := found
      exact layoutLaw_row rfl fits.1 inner whole
  | .int width isSigned, layout, fits, found => by
      rw [layoutLaw_scalar (by simp [DataType.stripped]) rfl,
        getMemLayout_eq config _ layout fits found]
      exact scalar_divides_iff width.sizeInBytes_dvd
  | .float width, layout, fits, found => by
      rw [layoutLaw_scalar (by simp [DataType.stripped]) rfl,
        getMemLayout_eq config _ layout fits found]
      exact scalar_divides_iff width.sizeInBytes_dvd
  | .ptr _, layout, fits, found => by
      rw [layoutLaw_scalar (by simp [DataType.stripped]) rfl,
        getMemLayout_eq config _ layout fits found]
      exact scalar_divides_iff config.ptrSize.sizeInBytes_dvd
  | .bool, layout, fits, found => by
      rw [layoutLaw_scalar (by simp [DataType.stripped]) rfl,
        getMemLayout_eq config _ layout fits found]
      simp [Regular, TypeMemLayout.of, extent, scalarExtent]
  | .fn, layout, fits, found => by simp [getMemLayout] at found
  | .other, layout, fits, found => by simp [getMemLayout] at found

/-- A record of a byte and a row of two words, with words of 32 bits. -/
theorem paddedRecord_law :
    LayoutLaw ⟨.intTy64, .intTy32⟩
      (.record [.int .intTy8 false, .arr (.int .intTy32 true) (some (int32Literal 2))]) ⟨12, 4⟩ := by
  apply (layoutLaw_iff_regular _ _ _ ?_ (by decide)).mpr
  · intro before member after split hollow
    have member : member ∈ [DataType.int .intTy8 false,
        .arr (.int .intTy32 true) (some (int32Literal 2))] := by
      rw [split]
      exact List.mem_append_right _ List.mem_cons_self
    simp only [List.mem_cons, List.not_mem_nil, or_false] at member
    cases member with
    | inl first => exact (first ▸ hollow : Hollow (.int .intTy8 false)).elim
    | inr second =>
        exact (second ▸ hollow :
          Hollow (.arr (.int .intTy32 true) (some (int32Literal 2)))).elim
  · exact ⟨⟨trivial, ⟨trivial, by decide⟩, trivial⟩, by decide⟩

/-- The alignment of a byte is that of a word, which does not divide its size. -/
theorem byte_breaks_layoutLaw : ¬ ∀ (config : PointerModel) (type : DataType)
    (layout : TypeMemLayout), getMemLayout config type = some layout →
      LayoutLaw config type layout := by
  intro always
  have law := always ⟨.intTy64, .intTy32⟩ (.int .intTy8 false) ⟨1, 4⟩ rfl
  exact absurd law.divides (by decide)

end Exact

end Shady
