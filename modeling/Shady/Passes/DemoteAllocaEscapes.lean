import Shady.Passes.DemoteAllocaRuns
import Shady.Passes.DemoteAllocaUses

/-!
# Undefined allocations are not used

As long as the address of an allocation has not escaped, it is only found in what is computed
from it. Casts of an allocation that becomes undefined are not read through and do not escape, so
that the address can only get out through an operator that the analysis does not follow.
-/

set_option autoImplicit false

namespace Shady.DemoteAlloca
open Fallible

/-! ## Data keep the origins of what they are made from -/

section Origins
variable {i : Instance}

theorem mem_membersOrigins (members : Members) :
    i ∈ members.origins ↔ ∃ d ∈ members.toList, i ∈ d.origins := by
  induction members using Members.rec (motive_1 := fun _ => True) with
  | scalar => trivial
  | pointer => trivial
  | aggregate => trivial
  | nil => simp [Members.origins, Members.toList]
  | cons head tail _ ih => simp [Members.origins, Members.toList, ih]

@[simp] theorem toList_ofList (data : List Data) : (Members.ofList data).toList = data := by
  induction data with
  | nil => rfl
  | cons head tail ih => rw [Members.ofList, Members.toList, ih]

theorem mem_aggregateOrigins (data : List Data) :
    i ∈ (Data.aggregate (.ofList data)).origins ↔ ∃ d ∈ data, i ∈ d.origins := by
  rw [Data.origins, mem_membersOrigins, toList_ofList]

theorem getD_origins {data : List Data} {index : Nat} (held : i ∈ (data[index]?.getD (.scalar 0)).origins) :
    ∃ d ∈ data, i ∈ d.origins := by
  cases found : data[index]? with
  | none =>
      rw [found] at held
      cases held
  | some d =>
      rw [found] at held
      exact ⟨d, List.mem_of_getElem? found, held⟩

theorem member_origins {source : Data} {index : Int} (held : i ∈ (source.member index).origins) :
    i ∈ source.origins := by
  cases source with
  | scalar value => cases held
  | pointer origin path => cases held
  | aggregate members => exact (mem_membersOrigins members).mpr (getD_origins held)

theorem extract_origins {source : Data} {indices : List Data} (held : i ∈ (source.extract indices).origins) :
    i ∈ source.origins := by
  induction indices generalizing source with
  | nil => exact held
  | cons selector indices ih => exact member_origins (ih held)

theorem insert_origins {source inserted : Data} {indices : List Data}
    (held : i ∈ (source.insert inserted indices).origins) : i ∈ source.origins ∨ i ∈ inserted.origins := by
  induction indices generalizing source with
  | nil => exact .inr held
  | cons selector indices ih =>
      cases source with
      | scalar value => exact .inl held
      | pointer origin path => exact .inl held
      | aggregate members =>
          rw [Data.insert, mem_aggregateOrigins] at held
          obtain ⟨d, placed, held⟩ := held
          cases List.mem_or_eq_of_mem_set placed with
          | inl old => exact .inl ((mem_membersOrigins members).mpr ⟨d, old, held⟩)
          | inr new =>
              rw [new] at held
              exact (ih held).imp_left member_origins

theorem selectOne_origins {condition ifTrue ifFalse : Data}
    (held : i ∈ (Data.selectOne condition ifTrue ifFalse).origins) : i ∈ ifTrue.origins ∨ i ∈ ifFalse.origins := by
  unfold Data.selectOne at held
  split_ifs at held
  · exact .inr held
  · exact .inl held

theorem select_origins {condition ifTrue ifFalse : Data}
    (held : i ∈ (Data.select condition ifTrue ifFalse).origins) : i ∈ ifTrue.origins ∨ i ∈ ifFalse.origins := by
  unfold Data.select at held
  split at held
  case h_1 conditions trues falses =>
    rw [mem_aggregateOrigins] at held
    obtain ⟨d, lane, held⟩ := held
    obtain ⟨⟨condition, whenTrue, whenFalse⟩, zipped, rfl⟩ := List.mem_map.mp lane
    have pair := List.of_mem_zip (List.of_mem_zip zipped).2
    rw [Data.origins, Data.origins, mem_membersOrigins, mem_membersOrigins]
    exact (selectOne_origins held).imp (fun kept => ⟨whenTrue, pair.1, kept⟩) fun kept => ⟨whenFalse, pair.2, kept⟩
  case h_2 => exact selectOne_origins held

theorem elements_origins {source d : Data} (member : d ∈ source.elements) (held : i ∈ d.origins) : i ∈ source.origins := by
  cases source with
  | scalar value => cases member
  | pointer origin path => cases member
  | aggregate members => exact (mem_membersOrigins members).mpr ⟨d, member, held⟩

theorem shuffle_origins {lhs rhs : Data} {indices : List Data} (held : i ∈ (Data.shuffle lhs rhs indices).origins) :
    i ∈ lhs.origins ∨ i ∈ rhs.origins := by
  rw [Data.shuffle, mem_aggregateOrigins] at held
  obtain ⟨d, lane, held⟩ := held
  obtain ⟨index, -, rfl⟩ := List.mem_map.mp lane
  obtain ⟨d, member, held⟩ := getD_origins held
  exact (List.mem_append.mp member).imp (fun left => elements_origins left held) fun right => elements_origins right held

/-- Operators give no addresses that their operands do not have. -/
theorem evalOp_origins {machine : Machine} {op : Op} {types : List IrType} {operands : List Data}
    (held : i ∈ (evalOp machine op types operands).origins) : ∃ d ∈ operands, i ∈ d.origins := by
  unfold evalOp at held
  split at held
  case h_1 source => exact ⟨source, List.mem_cons_self, held⟩
  case h_2 source => exact ⟨source, List.mem_cons_self, held⟩
  case h_3 source => exact ⟨source, List.mem_cons_self, held⟩
  case h_4 condition ifTrue ifFalse =>
    cases select_origins held with
    | inl kept => exact ⟨ifTrue, by simp, kept⟩
    | inr kept => exact ⟨ifFalse, by simp, kept⟩
  case h_5 source indices => exact ⟨source, List.mem_cons_self, extract_origins held⟩
  case h_6 source indices => exact ⟨source, List.mem_cons_self, extract_origins held⟩
  case h_7 source inserted indices =>
    cases insert_origins held with
    | inl kept => exact ⟨source, List.mem_cons_self, kept⟩
    | inr kept => exact ⟨inserted, by simp, kept⟩
  case h_8 lhs rhs indices =>
    cases shuffle_origins held with
    | inl kept => exact ⟨lhs, List.mem_cons_self, kept⟩
    | inr kept => exact ⟨rhs, by simp, kept⟩
  case h_9 =>
    rw [machine.compute_origins] at held
    cases held

end Origins
/-! ## Where the address can be -/

/-- The operator keeps addresses, and the analysis does not follow it. -/
def Op.Unfollowed (op : Op) : Prop := op ≠ .convert ∧ op ≠ .reinterpret ∧ op.hasSideEffects = false

/-- The value is computed by an operator that the analysis does not follow, from the address of
the allocation or a cast of it. -/
def ThroughOperator (alloc : Alloc) (v : IrValue) : Prop :=
  ∃ op types operands type, IrValue.primOp op types operands type ∈ v.parts ∧ op.Unfollowed ∧
    ∃ operand ∈ operands.toList, getPtrSourceKnowledge operand = some alloc

/-- No run gets the address to a read or lets it escape through such an operator. -/
def NeverThroughOperator (f : FunctionBody) (alloc : Alloc) : Prop :=
  ∀ (machine : Machine) (s : State machine), Reaches f s → ∀ v, s.Exposes alloc v → ¬ ThroughOperator alloc v

/-- The address of the allocation is nowhere but in what it gave itself. -/
structure Clean {machine : Machine} (alloc : Alloc) (s : State machine) : Prop where
  values : ∀ id serial, ⟨alloc, serial⟩ ∉ (s.values id).origins
  addresses : ∀ other, ∀ i ∈ (s.addresses other).origins, i.alloc = other
  memory : ∀ serial, ¬ machine.Holds s.memory ⟨alloc, serial⟩

/-- The operands of a value that is no cast. -/
def IrValue.castless : IrValue → Bool
  | .primOp .convert _ _ _ => false
  | .primOp .reinterpret _ _ _ => false
  | _ => true

/-- A part of `v` that is no cast uses a cast of the address. -/
def Uncast (alloc : Alloc) (v : IrValue) : Prop :=
  ∃ user ∈ v.parts, user.castless = true ∧ ∃ w ∈ user.operands, getPtrSourceKnowledge w = some alloc

theorem IrValue.mem_parts_self (v : IrValue) : v ∈ v.parts := by
  cases v <;> simp [IrValue.parts]

theorem mem_partsList {values : IrValues} {part : IrValue} :
    part ∈ values.parts ↔ ∃ v ∈ values.toList, part ∈ v.parts := by
  induction values using IrValues.rec (motive_1 := fun _ => True) with
  | nil => simp [IrValues.parts, IrValues.toList]
  | cons head tail _ ih => simp [IrValues.parts, IrValues.toList, ih]
  | _ => trivial

theorem mem_parts_operand {v w part : IrValue} (operand : w ∈ v.operands) (member : part ∈ w.parts) : part ∈ v.parts := by
  cases v with
  | source id type => cases operand
  | allocation alloc => cases operand
  | primOp op types operands type => exact List.mem_cons_of_mem _ (mem_partsList.mpr ⟨w, operand, member⟩)
  | composite contents type => exact List.mem_cons_of_mem _ (mem_partsList.mpr ⟨w, operand, member⟩)
  | ptrCompositeElement ptr index type =>
      simp only [IrValue.operands, List.mem_cons, List.not_mem_nil, or_false] at operand
      rcases operand with rfl | rfl <;> simp [IrValue.parts, member]
  | ptrArrayElementOffset ptr offset type =>
      simp only [IrValue.operands, List.mem_cons, List.not_mem_nil, or_false] at operand
      rcases operand with rfl | rfl <;> simp [IrValue.parts, member]

theorem Uncast.of_operand {alloc : Alloc} {v w : IrValue} (operand : w ∈ v.operands) (uncast : Uncast alloc w) :
    Uncast alloc v := by
  obtain ⟨user, part, rest⟩ := uncast
  exact ⟨user, mem_parts_operand operand part, rest⟩

/-- What holds of an operand of a value that is no cast. -/
theorem Uncast.of_castless {alloc : Alloc} {v w : IrValue} (castless : v.castless = true) (operand : w ∈ v.operands)
    (found : getPtrSourceKnowledge w = some alloc ∨ Uncast alloc w) : Uncast alloc v := by
  cases found with
  | inl cast => exact ⟨v, v.mem_parts_self, castless, w, operand, cast⟩
  | inr uncast => exact uncast.of_operand operand

section Found
variable {machine : Machine} {s : State machine}

theorem mem_evalAll {values : IrValues} {d : Data} : d ∈ s.evalAll values ↔ ∃ v ∈ values.toList, s.eval v = d := by
  induction values using IrValues.rec (motive_1 := fun _ => True) with
  | nil => simp [State.evalAll, IrValues.toList]
  | cons head tail _ ih => simp [State.evalAll, IrValues.toList, ih, eq_comm]
  | _ => trivial

theorem evalCast_origins {i : Instance} {op : Op} (cast : op = .convert ∨ op = .reinterpret) {types : List IrType}
    {operands : IrValues} (held : i ∈ (evalOp machine op types (s.evalAll operands)).origins) :
    ∃ v tail, operands = .cons v tail ∧ i ∈ (s.eval v).origins := by
  cases operands with
  | nil =>
      rcases cast with rfl | rfl <;>
        rw [State.evalAll, evalOp, machine.compute_origins] at held <;> first | cases held | simp
  | cons v tail =>
      refine ⟨v, tail, rfl, ?_⟩
      cases tail with
      | nil => rcases cast with rfl | rfl <;> exact held
      | cons second tail =>
          rcases cast with rfl | rfl <;>
            rw [State.evalAll, State.evalAll, evalOp, machine.compute_origins] at held <;> first | cases held | simp

/-- Where the address is found, it comes from the allocation. -/
theorem Clean.found {alloc : Alloc} (clean : Clean alloc s) {serial : Nat} : ∀ v : IrValue,
    ⟨alloc, serial⟩ ∈ (s.eval v).origins → getPtrSourceKnowledge v = some alloc ∨ Uncast alloc v := by
  intro v
  induction v using IrValue.rec (motive_2 := fun values => ∀ v ∈ values.toList,
    ⟨alloc, serial⟩ ∈ (s.eval v).origins → getPtrSourceKnowledge v = some alloc ∨ Uncast alloc v) with
  | source id type =>
      intro held
      exact absurd held (clean.values id serial)
  | allocation other =>
      intro held
      exact .inl (congrArg some (clean.addresses other _ held).symm)
  | primOp op types operands type ih =>
      intro held
      rw [State.eval] at held
      by_cases cast : op = .convert ∨ op = .reinterpret
      · obtain ⟨v, tail, rfl, heldBefore⟩ := evalCast_origins cast held
        have source : getPtrSourceKnowledge (.primOp op types (.cons v tail) type) = getPtrSourceKnowledge v := by
          rcases cast with rfl | rfl <;> rfl
        rw [source]
        exact (ih v List.mem_cons_self heldBefore).imp_right (Uncast.of_operand List.mem_cons_self)
      · have castless : (IrValue.primOp op types operands type).castless = true := by
          cases op <;> simp_all [IrValue.castless]
        obtain ⟨d, evaluated, held⟩ := evalOp_origins held
        obtain ⟨v, operand, rfl⟩ := mem_evalAll.mp evaluated
        exact .inr (.of_castless castless operand (ih v operand held))
  | composite contents type ih =>
      intro held
      rw [State.eval, mem_aggregateOrigins] at held
      obtain ⟨d, evaluated, held⟩ := held
      obtain ⟨v, operand, rfl⟩ := mem_evalAll.mp evaluated
      exact .inr (.of_castless rfl operand (ih v operand held))
  | ptrCompositeElement ptr index type ih =>
      intro held
      exact .inr (.of_castless rfl List.mem_cons_self (ih (machine.element_origins _ _ _ held)))
  | ptrArrayElementOffset ptr offset type ih =>
      intro held
      exact .inr (.of_castless rfl List.mem_cons_self (ih (machine.offset_origins _ _ _ held)))
  | nil v member => cases member
  | cons head tail ihHead ihTail v member held =>
      cases List.mem_cons.mp member with
      | inl same =>
          subst same
          exact ihHead held
      | inr later => exact ihTail v later held

end Found

/-! ## The uses of an undefined allocation -/

section Undef
variable {config : TypesConfig} {f : FunctionBody} {weaken : Bool} {alloc : Alloc}

theorem handleAlloc_undef (undef : handleAlloc config f weaken alloc = .ok .undef) :
    ∃ k, allocaInfo config f alloc = .ok k ∧ k.leaks = false ∧ k.readFrom = false := by
  obtain ⟨k, analysed, decided⟩ := bind_eq_ok.mp undef
  refine ⟨k, analysed, ?_⟩
  split_ifs at decided with unused weakened
  · simpa using unused
  · cases decided
  · cases decided

theorem parts_trans {u v w : IrValue} (inner : u ∈ v.parts) (outer : v ∈ w.parts) : u ∈ w.parts := by
  induction w using IrValue.rec (motive_2 := fun values => ∀ w ∈ values.toList, v ∈ w.parts → u ∈ w.parts) with
  | source id type =>
      cases List.mem_singleton.mp outer
      exact inner
  | allocation other =>
      cases List.mem_singleton.mp outer
      exact inner
  | primOp op types operands type ih =>
      cases List.mem_cons.mp outer with
      | inl same => exact same ▸ inner
      | inr below =>
          obtain ⟨w, operand, member⟩ := mem_partsList.mp below
          exact List.mem_cons_of_mem _ (mem_partsList.mpr ⟨w, operand, ih w operand member⟩)
  | composite contents type ih =>
      cases List.mem_cons.mp outer with
      | inl same => exact same ▸ inner
      | inr below =>
          obtain ⟨w, operand, member⟩ := mem_partsList.mp below
          exact List.mem_cons_of_mem _ (mem_partsList.mpr ⟨w, operand, ih w operand member⟩)
  | ptrCompositeElement ptr index type ihPtr ihIndex =>
      cases List.mem_cons.mp outer with
      | inl same => exact same ▸ inner
      | inr below => exact List.mem_cons_of_mem _ (List.mem_append.mpr ((List.mem_append.mp below).imp ihPtr ihIndex))
  | ptrArrayElementOffset ptr offset type ihPtr ihOffset =>
      cases List.mem_cons.mp outer with
      | inl same => exact same ▸ inner
      | inr below => exact List.mem_cons_of_mem _ (List.mem_append.mpr ((List.mem_append.mp below).imp ihPtr ihOffset))
  | nil w member => cases member
  | cons head tail ihHead ihTail w member outer =>
      cases List.mem_cons.mp member with
      | inl same =>
          subst same
          exact ihHead outer
      | inr later => exact ihTail w later outer

theorem mem_values {v : IrValue} : v ∈ f.values ↔
    ∃ operand, ((∃ instr ∈ f.instrs, operand ∈ instr.operands) ∨ ∃ block ∈ f.blocks, operand ∈ block.terminatorOperands) ∧
      v ∈ operand.parts := by
  simp only [FunctionBody.values, List.mem_dedup, List.mem_flatMap, List.mem_append]

theorem values_closed {v part : IrValue} (used : v ∈ f.values) (member : part ∈ v.parts) : part ∈ f.values := by
  obtain ⟨operand, place, below⟩ := mem_values.mp used
  exact mem_values.mpr ⟨operand, place, parts_trans member below⟩

theorem operand_mem_values {v w : IrValue} (used : v ∈ f.values) (operand : w ∈ v.operands) : w ∈ f.values :=
  values_closed used (mem_parts_operand operand w.mem_parts_self)

theorem CastChain.snoc {u v w : IrValue} (chain : CastChain f u v) (cast : CastOf v w) (used : w ∈ f.values) :
    CastChain f u w := by
  induction chain with
  | refl => exact .cast cast used (.refl w)
  | cast first usedFirst _ ih => exact .cast first usedFirst (ih cast)

theorem castChain_of_source {v : IrValue} (source : getPtrSourceKnowledge v = some alloc) (used : v ∈ f.values) :
    CastChain f (.allocation alloc) v := by
  induction v using getPtrSourceKnowledge.induct with
  | case1 other =>
      cases source
      exact .refl _
  | case2 types operand tail type ih =>
      exact (ih source (operand_mem_values used List.mem_cons_self)).snoc (.convert types tail type) used
  | case3 types operand tail type ih =>
      exact (ih source (operand_mem_values used List.mem_cons_self)).snoc (.reinterpret types tail type) used
  | case4 => simp_all [getPtrSourceKnowledge]

/-- The uses of the casts of an allocation that does not leak have set their flags. -/
theorem noted_of_source {k : AllocaInfo} (analysed : allocaInfo config f alloc = .ok k) (tight : k.leaks = false)
    {v : IrValue} (source : getPtrSourceKnowledge v = some alloc) (used : v ∈ f.values) {use : Use}
    (listed : use ∈ f.usesOf v) : Noted v k use := by
  cases (visitPtrUses_notes analysed).2 v (castChain_of_source source used) with
  | inl leaks =>
      rw [tight] at leaks
      cases leaks
  | inr noted => exact noted use listed

/-- A use of the address by anything but a cast that does not make it leak is by an operator that
the analysis does not follow. -/
theorem throughOperator_of_uncast {k : AllocaInfo} (analysed : allocaInfo config f alloc = .ok k)
    (tight : k.leaks = false) {v : IrValue} (used : v ∈ f.values) (uncast : Uncast alloc v) : ThroughOperator alloc v := by
  obtain ⟨user, part, castless, w, operand, source⟩ := uncast
  have usedUser := values_closed used part
  have noted := noted_of_source analysed tight source (operand_mem_values usedUser operand)
    (mem_usesOf_value.mpr ⟨usedUser, operand⟩)
  cases user with
  | source id type => cases operand
  | allocation other => cases operand
  | primOp op types operands type =>
      refine ⟨op, types, operands, type, part, ⟨?_, ?_, ?_⟩, w, operand, source⟩
      · rintro rfl
        cases castless
      · rintro rfl
        cases castless
      · by_contra effects
        have leaks := noted.2 (by simpa using effects)
        rw [tight] at leaks
        cases leaks
  | composite contents type => exact absurd noted (by simp [Noted, tight])
  | ptrCompositeElement ptr index type => exact absurd noted (by simp [Noted, tight])
  | ptrArrayElementOffset ptr offset type => exact absurd noted (by simp [Noted, tight])

/-! ## Runs of the function -/

variable {machine : Machine}

/-- A run stays in the blocks of the function. -/
structure InBody (f : FunctionBody) (s : State machine) : Prop where
  block : s.block ∈ f.blocks
  rest : ∀ instr ∈ s.rest, instr ∈ s.block.instrs

theorem InBody.mem_instrs {s : State machine} (inBody : InBody f s) {instr : Instr} (member : instr ∈ s.rest) :
    instr ∈ f.instrs := List.mem_flatMap.mpr ⟨s.block, inBody.block, inBody.rest instr member⟩

theorem inBody_of_reaches {s : State machine} (reaches : Reaches f s) : InBody f s := by
  induction reaches with
  | start starts =>
      constructor
      · exact List.mem_of_head? starts.entry
      · intro instr member
        rwa [starts.first] at member
  | step _ step ih =>
      cases step with
      | transfer next taken target =>
          constructor
          · exact List.mem_of_getElem? target
          · exact fun instr member => member
      | _ next =>
          constructor
          · exact ih.block
          · intro instr member
            exact ih.rest instr (next ▸ List.mem_cons_of_mem _ member)

/-- Being exposed is a use that sets one of the flags. -/
theorem exposed_noted {s : State machine} (inBody : InBody f s) {v : IrValue} (exposed : v ∈ s.exposed) :
    v ∈ f.values ∧ ∃ use ∈ f.usesOf v, ∀ k, Noted v k use → k.leaks = true ∨ k.readFrom = true := by
  unfold State.exposed at exposed
  split at exposed
  case h_1 next =>
    constructor
    · exact mem_values.mpr ⟨v, .inr ⟨s.block, inBody.block, exposed⟩, v.mem_parts_self⟩
    · exact ⟨.terminator, mem_usesOf_terminator.mpr ⟨s.block, inBody.block, exposed⟩, fun k => .inl⟩
  case h_2 => cases exposed
  case h_3 id ptr rest next =>
    obtain rfl := List.mem_singleton.mp exposed
    have listed := inBody.mem_instrs (next ▸ List.mem_cons_self)
    have operand : v ∈ (Instr.load id v).operands := List.mem_cons_self
    constructor
    · exact mem_values.mpr ⟨v, .inl ⟨_, listed, operand⟩, v.mem_parts_self⟩
    · exact ⟨_, mem_usesOf_instr.mpr ⟨listed, operand⟩, fun k => .inr⟩
  case h_4 ptr value rest next =>
    obtain rfl := List.mem_singleton.mp exposed
    have listed := inBody.mem_instrs (next ▸ List.mem_cons_self)
    have operand : v ∈ (Instr.store ptr v).operands := by simp [Instr.operands]
    constructor
    · exact mem_values.mpr ⟨v, .inl ⟨_, listed, operand⟩, v.mem_parts_self⟩
    · exact ⟨_, mem_usesOf_instr.mpr ⟨listed, operand⟩, fun k noted => .inl (noted rfl)⟩
  case h_5 id operands rest next =>
    have listed := inBody.mem_instrs (next ▸ List.mem_cons_self)
    constructor
    · exact mem_values.mpr ⟨v, .inl ⟨_, listed, exposed⟩, v.mem_parts_self⟩
    · exact ⟨_, mem_usesOf_instr.mpr ⟨listed, exposed⟩, fun k => .inl⟩

theorem Clean.throughOperator {s : State machine} (clean : Clean alloc s)
    (undef : handleAlloc config f weaken alloc = .ok .undef) (inBody : InBody f s) {v : IrValue}
    (exposes : s.Exposes alloc v) : ThroughOperator alloc v := by
  obtain ⟨k, analysed, tight, unread⟩ := handleAlloc_undef undef
  obtain ⟨exposed, serial, held⟩ := exposes
  obtain ⟨used, use, listed, flags⟩ := exposed_noted inBody exposed
  cases clean.found v held with
  | inl source =>
      cases flags k (noted_of_source analysed tight source used listed) with
      | inl leaks =>
          rw [tight] at leaks
          cases leaks
      | inr read =>
          rw [unread] at read
          cases read
  | inr uncast => exact throughOperator_of_uncast analysed tight used uncast

theorem bindParams_origins {values : Nat → Data} {params : List Nat} {args : List Data} {id : Nat} {i : Instance}
    (held : i ∈ (bindParams values params args id).origins) : i ∈ (values id).origins ∨ ∃ arg ∈ args, i ∈ arg.origins := by
  induction params generalizing args with
  | nil => exact .inl held
  | cons param params ih =>
      cases args with
      | nil => exact .inl held
      | cons arg args =>
          rw [bindParams] at held
          by_cases same : id = param
          · rw [same, Function.update_self] at held
            exact .inr ⟨arg, List.mem_cons_self, held⟩
          · rw [Function.update_of_ne same] at held
            exact (ih held).imp_right fun ⟨other, member, holds⟩ => ⟨other, List.mem_cons_of_mem _ member, holds⟩

/-- A step that does not expose the address keeps it where it is. -/
theorem Clean.step {s s' : State machine} (clean : Clean alloc s) (hidden : ∀ v, ¬ s.Exposes alloc v)
    (step : Step f s s') : Clean alloc s' := by
  have unexposed : ∀ v ∈ s.exposed, ∀ serial, ⟨alloc, serial⟩ ∉ (s.eval v).origins :=
    fun v exposed serial held => hidden v ⟨exposed, serial, held⟩
  cases step with
  | @alloc executed rest next =>
      refine ⟨clean.values, ?_, clean.memory⟩
      intro other i held
      dsimp only at held
      by_cases same : other = executed
      · rw [same, Function.update_self] at held
        cases List.mem_singleton.mp held
        exact same.symm
      · rw [Function.update_of_ne same] at held
        exact clean.addresses other i held
  | @load id ptr rest next =>
      refine ⟨?_, clean.addresses, clean.memory⟩
      intro other serial held
      dsimp only at held
      by_cases same : other = id
      · rw [same, Function.update_self] at held
        exact clean.memory serial (machine.read_origins _ _ _ held)
      · rw [Function.update_of_ne same] at held
        exact clean.values other serial held
  | @store ptr value rest next =>
      refine ⟨clean.values, clean.addresses, ?_⟩
      intro serial holds
      cases machine.write_holds _ _ _ _ holds with
      | inl before => exact clean.memory serial before
      | inr stored => exact unexposed value (by simp [State.exposed, next]) serial stored
  | @other id operands rest next =>
      have outside : ∀ serial, ¬ (⟨alloc, serial⟩ ∈ (machine.other id (operands.map s.eval) s.memory).1.origins ∨
          machine.Holds (machine.other id (operands.map s.eval) s.memory).2 ⟨alloc, serial⟩) := by
        intro serial made
        cases machine.other_origins _ _ _ _ made with
        | inl before => exact clean.memory serial before
        | inr given =>
            obtain ⟨d, evaluated, held⟩ := given
            obtain ⟨v, operand, rfl⟩ := List.mem_map.mp evaluated
            exact unexposed v (by simpa [State.exposed, next] using operand) serial held
      refine ⟨?_, clean.addresses, fun serial holds => outside serial (.inr holds)⟩
      intro slot serial held
      dsimp only at held
      by_cases same : slot = id
      · rw [same, Function.update_self] at held
        exact outside serial (.inl held)
      · rw [Function.update_of_ne same] at held
        exact clean.values slot serial held
  | @transfer transfer block next taken target =>
      refine ⟨?_, clean.addresses, clean.memory⟩
      intro id serial held
      cases bindParams_origins held with
      | inl before => exact clean.values id serial before
      | inr passed =>
          obtain ⟨d, evaluated, held⟩ := passed
          obtain ⟨v, arg, rfl⟩ := List.mem_map.mp evaluated
          have exposed : v ∈ s.exposed := by
            simp only [State.exposed, next, Block.terminatorOperands, List.mem_append, List.mem_flatMap]
            exact .inr ⟨transfer, taken, arg⟩
          exact unexposed v exposed serial held

theorem clean_of_reaches (undef : handleAlloc config f weaken alloc = .ok .undef) (never : NeverThroughOperator f alloc)
    {s : State machine} (reaches : Reaches f s) : Clean alloc s := by
  induction reaches with
  | start starts =>
      constructor
      · intro id serial held
        rw [starts.values] at held
        cases held
      · intro other i held
        rw [starts.addresses] at held
        cases held
      · exact fun serial => starts.memory _
  | step before step ih =>
      refine ih.step (fun v exposes => ?_) step
      exact never _ _ before v exposes (ih.throughOperator undef (inBody_of_reaches before) exposes)

/-- The address of an undefined allocation is never read through and never escapes, if and only if
it does not get there through an operator that the analysis does not follow. -/
theorem neverReadNorEscapes_iff (undef : handleAlloc config f weaken alloc = .ok .undef) :
    NeverReadNorEscapes f alloc ↔ NeverThroughOperator f alloc := by
  constructor
  · intro never machine s reaches v exposes _
    exact never machine s reaches v exposes
  · intro never machine s reaches v exposes
    have clean := clean_of_reaches undef never reaches
    exact never machine s reaches v exposes (clean.throughOperator undef (inBody_of_reaches reaches) exposes)

end Undef

end Shady.DemoteAlloca
