import Shady.Passes.StackFrames
import Shady.Ir.LayoutLaw
import Shady.Library.Fallible

/-!
# The slots of a frame

Each `StackAlloc` of a function has a member of the record of its frame to itself, and
lies where the member is placed.
-/

set_option autoImplicit false

namespace Shady

section Slots
variable {config : PointerModel}

/-- The slot is the member of that number. -/
structure IsSlot (config : PointerModel) (members : List DataType) (slot : StackSlot) : Prop where
  type : members[slot.i]? = some slot.type
  offset : getRecordFieldOffsetInBytes config members slot.i = some slot.offset

def slotOf : StackInstr StackSlot → Option StackSlot
  | .stackAlloc slot => some slot
  | _ => none

theorem lowerInstrs_spec {members : List DataType} {start : Nat} {instrs : List (StackInstr DataType)}
    {lowered : List (StackInstr StackSlot)} (before after : List DataType)
    (whole : members = before ++ searchOperandForAlloca instrs ++ after)
    (begins : before.length = start)
    (ran : lowerInstrs config members start instrs = some lowered) :
    (∀ slot ∈ lowered.filterMap slotOf, IsSlot config members slot) ∧
      (lowered.filterMap slotOf).map StackSlot.i =
        (List.range' start (searchOperandForAlloca instrs).length).reverse := by
  induction instrs generalizing after lowered with
  | nil =>
      cases ran
      simp [searchOperandForAlloca]
  | cons instr rest ih =>
      cases instr with
      | stackAlloc type =>
          have found : searchOperandForAlloca (.stackAlloc type :: rest) =
              searchOperandForAlloca rest ++ [type] := by
            simp [searchOperandForAlloca, allocaType]
          simp only [lowerInstrs, Option.bind_eq_bind, Option.bind_eq_some_iff,
            Option.some.injEq] at ran
          obtain ⟨offset, atOffset, lowered', others, equal⟩ := ran
          rw [found] at whole
          have more := ih (type :: after) (by simpa using whole) others
          have isType : members[start + (searchOperandForAlloca rest).length]? = some type := by
            rw [whole, ← begins]
            simp
          rw [← equal, found]
          constructor
          · intro slot inside
            rw [List.filterMap_cons_some (by rfl : slotOf (.stackAlloc _) = some _),
              List.mem_cons] at inside
            cases inside with
            | inl head =>
                rw [head]
                exact ⟨isType, atOffset⟩
            | inr tail => exact more.1 slot tail
          · rw [List.filterMap_cons_some (by rfl : slotOf (.stackAlloc _) = some _), List.map_cons,
              more.2, List.length_append, List.length_singleton, List.range'_concat,
              List.reverse_append]
            simp
      | pushStack _ | popStack _ | setStackSize | call _ =>
          simp only [lowerInstrs, Option.map_eq_some_iff] at ran
          obtain ⟨lowered', others, equal⟩ := ran
          have more := ih after whole others
          rw [← equal]
          exact more

def slotsOf (blocks : List (StackBlock StackSlot)) : List StackSlot :=
  blocks.flatMap fun block => block.instrs.filterMap slotOf

theorem lowerBlocks_spec {members : List DataType} {start : Nat}
    {blocks : List (StackBlock DataType)} {lowered : List (StackBlock StackSlot)}
    (before : List DataType)
    (whole : members =
      before ++ blocks.flatMap fun block => searchOperandForAlloca block.instrs)
    (begins : before.length = start)
    (ran : lowerBlocks config members start blocks = some lowered) :
    (∀ slot ∈ slotsOf lowered, IsSlot config members slot) ∧
      lowered.map StackBlock.terminator = blocks.map StackBlock.terminator ∧
      ((slotsOf lowered).map StackSlot.i).Nodup ∧
      ∀ i ∈ (slotsOf lowered).map StackSlot.i, start ≤ i := by
  induction blocks generalizing before start lowered with
  | nil =>
      cases ran
      simp [slotsOf]
  | cons block blocks ih =>
      simp only [lowerBlocks, Option.bind_eq_bind, Option.bind_eq_some_iff,
        Option.some.injEq] at ran
      obtain ⟨instrs, first, rest, others, equal⟩ := ran
      rw [List.flatMap_cons, ← List.append_assoc] at whole
      have head := lowerInstrs_spec before _ whole begins first
      have tail := ih (before ++ searchOperandForAlloca block.instrs) whole
        (by rw [List.length_append, begins]) others
      obtain ⟨tailSlots, terminators, nodup, lower⟩ := tail
      rw [← equal]
      refine ⟨?_, by simp [terminators], ?_, ?_⟩
      · intro slot inside
        rw [slotsOf, List.flatMap_cons, List.mem_append] at inside
        exact inside.elim (head.1 slot) (tailSlots slot)
      · rw [slotsOf, List.flatMap_cons, List.map_append, head.2, List.nodup_append]
        refine ⟨List.nodup_reverse.mpr List.nodup_range', nodup, ?_⟩
        intro i inFirst j inRest
        have upper := lower j inRest
        rw [List.mem_reverse, List.mem_range'_1] at inFirst
        omega
      · intro i inside
        rw [slotsOf, List.flatMap_cons, List.map_append, List.mem_append, head.2,
          List.mem_reverse, List.mem_range'_1] at inside
        cases inside with
        | inl inFirst => exact inFirst.1
        | inr inRest =>
            have := lower i inRest
            omega

/-- What `lower_alloca` and `setup_stack_frames` see to. -/
structure Framed (config : PointerModel) (fn : LoweredFunction) : Prop where
  slots : ∀ slot ∈ slotsOf fn.blocks, IsSlot config fn.members slot
  numbered : ((slotsOf fn.blocks).map StackSlot.i).Nodup
  restores : ∀ block ∈ fn.blocks, block.terminator ≠ .fnRet false
  frame : ∃ layout, getMemLayout config (.record fn.members) = some layout ∧
    fn.frameSize = stackPtrT layout.sizeInBytes

theorem framed_of_lowered {function : StackFunction} {fn : LoweredFunction}
    (lowered : lowerAlloca config (setupStackFrames function) = some fn) : Framed config fn := by
  simp only [lowerAlloca, Option.bind_eq_bind, Option.bind_eq_some_iff, Option.some.injEq]
    at lowered
  obtain ⟨layout, found, blocks, ran, equal⟩ := lowered
  have spec := lowerBlocks_spec [] rfl rfl ran
  obtain ⟨slots, terminators, nodup, -⟩ := spec
  rw [← equal]
  refine ⟨slots, nodup, ?_, layout, found, rfl⟩
  intro block inside unrestored
  have listed : StackTerminator.fnRet false ∈ blocks.map StackBlock.terminator :=
    unrestored ▸ List.mem_map_of_mem inside
  rw [terminators, setupStackFrames, List.map_map, List.mem_map] at listed
  obtain ⟨source, -, same⟩ := listed
  simp only [Function.comp_apply] at same
  cases terminator : source.terminator <;> simp [restoreStackSize, terminator] at same

theorem framed_of_program {functions : List StackFunction} {program : List LoweredFunction}
    (lowered : lowerFrames config functions = some program) :
    ∀ fn ∈ program, Framed config fn := by
  intro fn inside
  obtain ⟨function, -, same⟩ := Fallible.mem_of_mapM_some lowered fn inside
  exact framed_of_lowered same

/-- The frame takes fewer than `2 ^ 32` bytes. -/
def SmallFrame (config : PointerModel) (fn : LoweredFunction) : Prop :=
  Fits config (.record fn.members) ∧ (extent config (.record fn.members)).size < 2 ^ 32

theorem fitsAll_mem : ∀ {members : List DataType} {member : DataType}, FitsAll config members →
    member ∈ members → Fits config member
  | first :: rest, member, fits, inside => by
      cases List.mem_cons.mp inside with
      | inl head => exact head ▸ fits.1
      | inr tail => exact fitsAll_mem fits.2 tail

theorem getMemLayout_of_recordFields : ∀ {members : List DataType} {offset maxAlign : Nat}
    {result : List FieldLayout × Nat × Nat} {member : DataType},
    recordFields config members offset maxAlign = some result → member ∈ members →
      ∃ layout, getMemLayout config member = some layout
  | first :: rest, offset, maxAlign, result, member, ran, inside => by
      simp only [recordFields, Option.bind_eq_bind, Option.bind_eq_some_iff] at ran
      obtain ⟨layout, found, ⟨fields, ends⟩, others, -⟩ := ran
      cases List.mem_cons.mp inside with
      | inl head => exact ⟨layout, head ▸ found⟩
      | inr tail => exact getMemLayout_of_recordFields others tail

/-- A slot is where its type is placed in the record. -/
theorem IsSlot.placed {members : List DataType} {slot : StackSlot}
    (isSlot : IsSlot config members slot) (fits : Fits config (.record members)) :
    (Packing.place 0 (extents config members))[slot.i]? =
      some (slot.offset, extent config slot.type) := by
  have offset := isSlot.offset
  simp only [getRecordFieldOffsetInBytes, Option.bind_eq_bind, Option.bind_eq_some_iff,
    Option.some.injEq] at offset
  obtain ⟨⟨layout, fields⟩, laidOut, field, found, atOffset⟩ := offset
  have fieldsEq := (getRecordLayout_eq fits laidOut).1
  rw [fieldsEq, List.getElem?_map, Option.map_eq_some_iff] at found
  obtain ⟨placed, listed, same⟩ := found
  have isExtent : (extents config members)[slot.i]? = some placed.2 := by
    rw [← Packing.place_map_snd 0 (extents config members), List.getElem?_map, listed,
      Option.map_some]
  rw [extents_eq_map, List.getElem?_map, isSlot.type, Option.map_some, Option.some.injEq]
    at isExtent
  rw [listed, ← atOffset, ← same, isExtent]
  rfl

theorem IsSlot.bytes {members : List DataType} {slot : StackSlot}
    (isSlot : IsSlot config members slot) (fits : Fits config (.record members)) :
    bytesOf config slot.type = some (extent config slot.type).size := by
  have fitsType := fitsAll_mem fits.1 (List.mem_of_getElem? isSlot.type)
  have offset := isSlot.offset
  simp only [getRecordFieldOffsetInBytes, getRecordLayout, Option.bind_eq_bind,
    Option.bind_eq_some_iff, Option.some.injEq] at offset
  obtain ⟨⟨layout, fields⟩, ⟨⟨fields', ends⟩, ran, -⟩, -⟩ := offset
  obtain ⟨own, found⟩ := getMemLayout_of_recordFields ran (List.mem_of_getElem? isSlot.type)
  rw [bytesOf, found, Option.map_some, getMemLayout_eq config _ own fitsType found]
  rfl

/-- A slot ends before the frame does. -/
theorem IsSlot.within {members : List DataType} {slot : StackSlot}
    (isSlot : IsSlot config members slot) (fits : Fits config (.record members)) :
    slot.offset + (extent config slot.type).size ≤ (extent config (.record members)).size := by
  have listed := List.mem_of_getElem? (isSlot.placed fits)
  exact Nat.le_trans (Packing.place_within 0 _ _ listed).2 (Packing.le_roundUp _ _)

theorem IsSlot.ordered {members : List DataType} {slot slot' : StackSlot}
    (isSlot : IsSlot config members slot) (isSlot' : IsSlot config members slot')
    (fits : Fits config (.record members)) (less : slot.i < slot'.i) :
    slot.offset + (extent config slot.type).size ≤ slot'.offset := by
  have first := List.getElem?_eq_some_iff.mp (isSlot.placed fits)
  have second := List.getElem?_eq_some_iff.mp (isSlot'.placed fits)
  obtain ⟨inside, at_⟩ := first
  obtain ⟨inside', at'⟩ := second
  have apart := List.pairwise_iff_getElem.mp
    (Packing.place_pairwise 0 (extents config members)) slot.i slot'.i inside inside' less
  rw [at_, at'] at apart
  exact apart

end Slots

end Shady
