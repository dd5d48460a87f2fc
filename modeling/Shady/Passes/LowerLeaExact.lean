import Shady.Passes.LowerLea
import Shady.Passes.PhysicalPtrsExact

/-!
# Address arithmetic agrees with serialisation

The slots of an element are some of the slots of the aggregate around it, at the address
that the chain computes. Loads and stores through the chain then agree with those of the
aggregate as soon as these round-trip, that is without booleans and with no two scalars in
one word.
-/

set_option autoImplicit false

namespace Shady

open WordArray (Slot InSlots storeAll loadAll)

section Exact
variable {config : PointerModel}

/-! ## An element among the slots of an aggregate -/

/-- The element at the path lies at the offset, its slots in the middle of those of the
whole, and its scalars in the middle of theirs. -/
structure Embedded (config : PointerModel) (whole part : DataType) (offset : Nat)
    (path : List Nat) : Prop where
  emulated : Emulated part
  plain : Plain part
  fits : Fits config part
  size : offset + (extent config part).size ≤ (extent config whole).size
  slots : ∀ address, ∃ before after,
    slots config whole address = before ++ (slots config part (address + offset) ++ after) ∧
    ∀ value, HasType config whole value → ∃ component front back,
      value.extract path = some component ∧ HasType config part component ∧
      InSlots before front ∧ InSlots after back ∧
      value.leaves = front ++ (component.leaves ++ back) ∧
      ∀ other, HasType config part other → ∃ changed, value.insert path other = some changed ∧
        HasType config whole changed ∧ changed.leaves = front ++ (other.leaves ++ back)

theorem Embedded.refl {type : DataType} (emulated : Emulated type) (plain : Plain type)
    (fits : Fits config type) : Embedded config type type 0 [] where
  emulated := emulated
  plain := plain
  fits := fits
  size := by omega
  slots address := by
    refine ⟨[], [], by simp, fun value typed => ?_⟩
    refine ⟨value, [], [], rfl, typed, List.Forall₂.nil, List.Forall₂.nil, by simp, ?_⟩
    exact fun other otherTyped => ⟨other, rfl, otherTyped, by simp⟩

theorem extract_append (value : StoredValue) (path later : List Nat) :
    value.extract (path ++ later) = (value.extract path).bind fun c => c.extract later := by
  induction path generalizing value with
  | nil => rfl
  | cons i path ih =>
      cases value with
      | composite components =>
          simp only [List.cons_append, StoredValue.extract, Option.bind_eq_bind, ih,
            Option.bind_assoc]
      | scalar bits => rfl
      | bool value => rfl

theorem insert_append (value inserted : StoredValue) (path later : List Nat) :
    value.insert (path ++ later) inserted = (value.extract path).bind fun c =>
      (c.insert later inserted).bind fun changed => value.insert path changed := by
  induction path generalizing value with
  | nil => simp [StoredValue.extract, StoredValue.insert]
  | cons i path ih =>
      cases value with
      | composite components =>
          simp only [List.cons_append, StoredValue.extract, StoredValue.insert,
            Option.bind_eq_bind, ih, Option.bind_assoc]
          cases components[i]? with
          | none => rfl
          | some component => rfl
      | scalar bits => rfl
      | bool value => rfl

theorem Embedded.trans {whole middle part : DataType} {offset offset' : Nat}
    {path path' : List Nat} (outer : Embedded config whole middle offset path)
    (inner : Embedded config middle part offset' path') :
    Embedded config whole part (offset + offset') (path ++ path') where
  emulated := inner.emulated
  plain := inner.plain
  fits := inner.fits
  size := by
    have := outer.size
    have := inner.size
    omega
  slots address := by
    obtain ⟨before, after, split, values⟩ := outer.slots address
    obtain ⟨before', after', split', values'⟩ := inner.slots (address + offset)
    refine ⟨before ++ before', after' ++ after, ?_, fun value typed => ?_⟩
    · rw [split, split', ← Nat.add_assoc]
      simp only [List.append_assoc]
    obtain ⟨component, front, back, extracted, componentTyped, inFront, inBack, leaves, put⟩ :=
      values value typed
    obtain ⟨component', front', back', extracted', typed', inFront', inBack', leaves', put'⟩ :=
      values' component componentTyped
    refine ⟨component', front ++ front', back' ++ back, ?_, typed', List.rel_append inFront inFront',
      List.rel_append inBack' inBack, ?_, fun other otherTyped => ?_⟩
    · rw [extract_append, extracted, Option.bind_some, extracted']
    · rw [leaves, leaves']
      simp only [List.append_assoc]
    · obtain ⟨changed', inserted', changedTyped', changedLeaves'⟩ := put' other otherTyped
      obtain ⟨changed, inserted, changedTyped, changedLeaves⟩ := put changed' changedTyped'
      refine ⟨changed, ?_, changedTyped, ?_⟩
      · rw [insert_append, extracted, Option.bind_some, inserted', Option.bind_some, inserted]
      · rw [changedLeaves, changedLeaves']
        simp only [List.append_assoc]

/-! ## Elements of a row -/

theorem rowSlots_append {bits : Nat} (place : Nat → List (Slot bits)) (stride m n address : Nat) :
    rowSlots place stride (m + n) address =
      rowSlots place stride m address ++ rowSlots place stride n (address + m * stride) := by
  induction m generalizing address with
  | zero => rw [Nat.zero_add, Nat.zero_mul, rowSlots, List.nil_append, Nat.add_zero]
  | succ m ih =>
      rw [Nat.succ_add, rowSlots, ih, rowSlots, List.append_assoc, Nat.succ_mul,
        Nat.add_assoc address, Nat.add_comm stride]

theorem leavesAll_append (front back : List StoredValue) :
    leavesAll (front ++ back) = leavesAll front ++ leavesAll back := by
  induction front with
  | nil => rfl
  | cons v front ih => rw [List.cons_append, leavesAll, leavesAll, ih, List.append_assoc]

/-- One component of a list of them, with the others. -/
theorem component_split {components : List StoredValue} {i : Nat} (inside : i < components.length) :
    ∃ before component after, components = before ++ component :: after ∧ before.length = i ∧
      (StoredValue.composite components).extract [i] = some component ∧
      ∀ other, (StoredValue.composite components).insert [i] other =
        some (.composite (before ++ other :: after)) := by
  refine ⟨components.take i, components[i], components.drop (i + 1), ?_, ?_, ?_, fun other => ?_⟩
  · rw [List.getElem_cons_drop, List.take_append_drop]
  · rw [List.length_take, Nat.min_eq_left (Nat.le_of_lt inside)]
  · simp [StoredValue.extract, List.getElem?_eq_getElem inside]
  · simp [StoredValue.insert, List.set_eq_take_append_cons_drop, inside]

theorem leavesAll_split (before after : List StoredValue) (component : StoredValue) :
    leavesAll (before ++ component :: after) =
      leavesAll before ++ (component.leaves ++ leavesAll after) := by
  rw [leavesAll_append, leavesAll]

theorem embedded_element {elementType : DataType} {size : IntLiteral} {i : Nat}
    (emulated : Emulated (.arr elementType (some size)))
    (plain : Plain (.arr elementType (some size)))
    (fits : Fits config (.arr elementType (some size))) (inside : i < literalCount size) :
    Embedded config (.arr elementType (some size)) elementType
      (i * (extent config elementType).size) [i] where
  emulated := emulated.2
  plain := plain.resolve_left (Nat.ne_of_gt (Nat.lt_of_le_of_lt (Nat.zero_le i) inside))
  fits := fits.1
  size := by
    have := Nat.mul_le_mul_right (extent config elementType).size inside
    rw [Nat.succ_mul] at this
    exact this
  slots address := by
    have count : literalCount size = i + ((literalCount size - i - 1) + 1) := by omega
    refine ⟨rowSlots (slots config elementType) (extent config elementType).size i address,
      rowSlots (slots config elementType) (extent config elementType).size
        (literalCount size - i - 1)
        (address + i * (extent config elementType).size + (extent config elementType).size),
      ?_, fun value typed => ?_⟩
    · rw [slots, Option.map_some, Option.getD_some]
      conv_lhs => rw [count]
      rw [rowSlots_append, rowSlots]
    cases value with
    | scalar bits => exact typed.elim
    | bool value => exact typed.elim
    | composite components =>
        obtain ⟨length, all⟩ := typed
        obtain ⟨before, component, after, split, behind, extracted, inserted⟩ :=
          component_split (length ▸ inside)
        rw [split, List.forall_mem_append, List.forall_mem_cons] at all
        have rest : after.length = literalCount size - i - 1 := by
          rw [split, List.length_append, List.length_cons] at length
          omega
        have front := inSlots_row (extent config elementType).size
          (fun v listed place => inSlots_leaves elementType v place (all.1 v listed)) address
        have back := inSlots_row (extent config elementType).size
          (fun v listed place => inSlots_leaves elementType v place (all.2.2 v listed))
          (address + i * (extent config elementType).size + (extent config elementType).size)
        rw [behind] at front
        rw [rest] at back
        refine ⟨component, leavesAll before, leavesAll after, extracted, all.2.1, front, back, ?_,
          fun other otherTyped => ⟨_, inserted other, ⟨?_, ?_⟩, leavesAll_split ..⟩⟩
        · rw [StoredValue.leaves, split, leavesAll_split]
        · rw [← length, split, List.length_append, List.length_append]
          rfl
        · rw [List.forall_mem_append, List.forall_mem_cons]
          exact ⟨all.1, otherTyped, all.2.2⟩

/-! ## Members of a record -/

theorem memberSlots_append (front back : List DataType) (offset address : Nat) :
    memberSlots config (front ++ back) offset address =
      memberSlots config front offset address ++
        memberSlots config back (Packing.finish offset (extents config front)) address := by
  induction front generalizing offset with
  | nil => rfl
  | cons member front ih =>
      rw [List.cons_append, memberSlots, ih, memberSlots, extents, Packing.finish,
        List.append_assoc]

theorem haveTypes_iff (members : List DataType) (components : List StoredValue) :
    HaveTypes config members components ↔ List.Forall₂ (HasType config) members components := by
  induction members generalizing components with
  | nil =>
      cases components with
      | nil => exact ⟨fun _ => List.Forall₂.nil, fun _ => trivial⟩
      | cons component components => exact ⟨False.elim, fun listed => nomatch listed⟩
  | cons member members ih =>
      cases components with
      | nil => exact ⟨False.elim, fun listed => nomatch listed⟩
      | cons component components =>
          rw [HaveTypes, ih, List.forall₂_cons]

theorem allEmulated_iff (members : List DataType) :
    AllEmulated members ↔ ∀ member ∈ members, Emulated member := by
  induction members with
  | nil => simp [AllEmulated]
  | cons member members ih => rw [AllEmulated, ih, List.forall_mem_cons]

theorem allPlain_iff (members : List DataType) :
    AllPlain members ↔ ∀ member ∈ members, Plain member := by
  induction members with
  | nil => simp [AllPlain]
  | cons member members ih => rw [AllPlain, ih, List.forall_mem_cons]

theorem fitsAll_iff (members : List DataType) :
    FitsAll config members ↔ ∀ member ∈ members, Fits config member := by
  induction members with
  | nil => simp [FitsAll]
  | cons member members ih => rw [FitsAll, ih, List.forall_mem_cons]

theorem forall₂_split {before after : List DataType} {member : DataType}
    {components : List StoredValue}
    (typed : List.Forall₂ (HasType config) (before ++ member :: after) components) :
    ∃ front component back, components = front ++ component :: back ∧
      List.Forall₂ (HasType config) before front ∧ HasType config member component ∧
      List.Forall₂ (HasType config) after back := by
  induction before generalizing components with
  | nil =>
      cases typed with
      | cons here later => exact ⟨[], _, _, rfl, List.Forall₂.nil, here, later⟩
  | cons first before ih =>
      cases typed with
      | cons here later =>
          obtain ⟨front, component, back, rfl, front', component', back'⟩ := ih later
          exact ⟨_ :: front, component, back, rfl, List.Forall₂.cons here front', component', back'⟩

theorem embedded_member {before after : List DataType} {member : DataType}
    (emulated : Emulated (.record (before ++ member :: after)))
    (plain : Plain (.record (before ++ member :: after)))
    (fits : Fits config (.record (before ++ member :: after))) :
    Embedded config (.record (before ++ member :: after)) member
      (Packing.roundUp (Packing.finish 0 (extents config before)) (extent config member).align)
      [before.length] where
  emulated := (allEmulated_iff _).mp emulated member (by simp)
  plain := (allPlain_iff _).mp plain member (by simp)
  fits := (fitsAll_iff _).mp fits.1 member (by simp)
  size := by
    have finished := Packing.le_roundUp (Packing.finish 0 (extents config (before ++ member :: after)))
      (Packing.maxAlign (extents config (before ++ member :: after)))
    have later := member_within config before after member
    exact Nat.le_trans later finished
  slots address := by
    refine ⟨memberSlots config before 0 address,
      memberSlots config after (Packing.finish 0 (extents config (before ++ [member]))) address,
      ?_, fun value typed => ?_⟩
    · rw [slots, memberSlots_append, memberSlots, finish_behind]
    cases value with
    | scalar bits => exact typed.elim
    | bool value => exact typed.elim
    | composite components =>
        obtain ⟨front, component, back, rfl, frontTyped, typed', backTyped⟩ :=
          forall₂_split ((haveTypes_iff _ _).mp typed)
        have length := frontTyped.length_eq
        refine ⟨component, leavesAll front, leavesAll back, ?_, typed',
          inSlots_members _ _ _ _ ((haveTypes_iff _ _).mpr frontTyped),
          inSlots_members _ _ _ _ ((haveTypes_iff _ _).mpr backTyped),
          leavesAll_split .., fun other otherTyped =>
            ⟨.composite (front ++ other :: back), ?_, ?_, leavesAll_split ..⟩⟩
        · simp [StoredValue.extract, length]
        · simp [StoredValue.insert, length]
        · exact (haveTypes_iff _ _).mpr
            (List.rel_append frontTyped (List.Forall₂.cons otherTyped backTyped))

/-! ## Paths -/

theorem iterate_ptrAdd (size i address : Nat) :
    (fun offset => ptrAdd config offset size)^[i] (toPtr config address) =
      toPtr config (address + i * size) := by
  induction i with
  | zero => rw [Function.iterate_zero_apply, Nat.zero_mul, Nat.add_zero]
  | succ i ih =>
      rw [Function.iterate_succ_apply', ih, ptrAdd_toPtr, Nat.succ_mul, Nat.add_assoc]

/-- A component lies where the store of the whole hands on its address. -/
theorem embedded_component {part : DataType} {i : Nat} : ∀ (whole : DataType), Emulated whole →
    Plain whole → Fits config whole → whole.component i = some part →
      ∃ offset, Embedded config whole part offset [i] ∧
        ∀ address, componentAddress config whole (toPtr config address) i =
          some (toPtr config (address + offset))
  | .arr elementType (some size), emulated, plain, fits, found => by
      rw [DataType.component] at found
      split at found
      case isFalse outside => cases found
      case isTrue inside =>
        cases found
        refine ⟨_, embedded_element emulated plain fits inside, fun address => ?_⟩
        rw [componentAddress, getMemLayout_extent _ emulated.2 fits.1, Option.bind_eq_bind,
          Option.bind_some, TypeMemLayout.of, iterate_ptrAdd]
  | .record members, emulated, plain, fits, found => by
      rw [DataType.component] at found
      have inside := List.getElem?_eq_some_iff.mp found
      obtain ⟨inside, rfl⟩ := inside
      have split : members = members.take i ++ members[i] :: members.drop (i + 1) := by
        rw [List.getElem_cons_drop, List.take_append_drop]
      have length : (members.take i).length = i := by
        rw [List.length_take, Nat.min_eq_left (Nat.le_of_lt inside)]
      generalize members[i] = member at split
      generalize members.take i = before at split length
      generalize members.drop (i + 1) = after at split
      subst split
      subst length
      refine ⟨_, embedded_member emulated plain fits, fun address => ?_⟩
      rw [componentAddress, fieldOffset_eq emulated fits, Option.bind_eq_bind, Option.bind_some,
        ptrAdd_toPtr]
  | .typeDeclRef body, emulated, plain, fits, found => by
      obtain ⟨offset, embedded, placed⟩ := embedded_component body emulated plain.2 fits found
      exact ⟨offset, ⟨embedded.emulated, embedded.plain, embedded.fits, embedded.size,
        embedded.slots⟩, placed⟩

theorem at_append {root type : DataType} {path : List Nat} (i : Nat)
    (found : root.at path = some type) : root.at (path ++ [i]) = type.component i := by
  induction path generalizing root with
  | nil =>
      cases found
      simp [DataType.at]
  | cons j path ih =>
      simp only [DataType.at, Option.bind_eq_bind, Option.bind_eq_some_iff] at found
      obtain ⟨next, step, found⟩ := found
      simp only [List.cons_append, DataType.at, step, Option.bind_eq_bind, Option.bind_some]
      exact ih found

theorem placedAt_append {root type part : DataType} {path : List Nat} {i address element : Nat}
    (found : root.at path = some type) (component : type.component i = some part)
    (placed : placedAt config root address path = some element) :
    placedAt config root address (path ++ [i]) = componentAddress config type element i := by
  induction path generalizing root address with
  | nil =>
      cases found
      cases placed
      simp [placedAt, component]
  | cons j path ih =>
      simp only [DataType.at, Option.bind_eq_bind, Option.bind_eq_some_iff] at found
      obtain ⟨next, step, found⟩ := found
      simp only [placedAt, step, Option.bind_eq_bind, Option.bind_some, Option.bind_eq_some_iff]
        at placed
      obtain ⟨inner, handed, placed⟩ := placed
      simp only [List.cons_append, placedAt, step, handed, Option.bind_eq_bind, Option.bind_some]
      exact ih found placed

/-- The element at a path is embedded where it is placed. -/
theorem embedded_at {root type : DataType} {path : List Nat} (emulated : Emulated root)
    (plain : Plain root) (fits : Fits config root) (found : root.at path = some type) :
    ∃ offset, Embedded config root type offset path ∧
      ∀ address, placedAt config root (toPtr config address) path =
        some (toPtr config (address + offset)) := by
  induction path generalizing root with
  | nil =>
      cases found
      exact ⟨0, Embedded.refl emulated plain fits, fun _ => rfl⟩
  | cons i path ih =>
      simp only [DataType.at, Option.bind_eq_bind, Option.bind_eq_some_iff] at found
      obtain ⟨next, step, found⟩ := found
      obtain ⟨offset, outer, handed⟩ := embedded_component root emulated plain fits step
      obtain ⟨offset', inner, placed⟩ := ih outer.emulated outer.plain outer.fits found
      refine ⟨offset + offset', outer.trans inner, fun address => ?_⟩
      simp only [placedAt, step, handed, Option.bind_eq_bind, Option.bind_some, placed,
        Nat.add_assoc]

/-! ## Chains -/

theorem convertIndex_eq (index : IndexOperand) :
    (convertIndex config index : Int) = index.denotes % 2 ^ config.ptrSize.bits := by
  have pattern : IntType.pattern ⟨config.ptrSize, false⟩
      (IntType.wrap ⟨config.ptrSize, index.type.isSigned⟩ index.denotes) =
        index.denotes % 2 ^ config.ptrSize.bits :=
    IntType.pattern_wrap ⟨config.ptrSize, index.type.isSigned⟩ index.denotes
  rw [convertIndex, pattern]
  exact Int.toNat_of_nonneg (Int.emod_nonneg _ (by positivity))

/-- Steps of a stride, any number of them forwards or backwards. -/
theorem ptrAdd_ptrMul {index : IndexOperand} {start i j : Nat} (size : Nat)
    (moved : (i : Int) + index.denotes = j) :
    ptrAdd config (toPtr config (start + i * size)) (ptrMul config (convertIndex config index) size) =
      toPtr config (start + j * size) := by
  have steps : (i + convertIndex config index) % 2 ^ config.ptrSize.bits =
      j % 2 ^ config.ptrSize.bits := by
    zify
    rw [convertIndex_eq, Int.add_emod_emod, moved]
  have scaled : (i * size + convertIndex config index * size) % 2 ^ config.ptrSize.bits =
      j * size % 2 ^ config.ptrSize.bits := by
    rw [← Nat.add_mul, Nat.mul_mod, steps, ← Nat.mul_mod]
  calc ptrAdd config (toPtr config (start + i * size))
        (ptrMul config (convertIndex config index) size)
      = (start + (i * size + convertIndex config index * size)) % 2 ^ config.ptrSize.bits := by
        rw [ptrAdd, toPtr, ptrMul, ← Nat.add_mod, Nat.add_assoc]
    _ = toPtr config (start + j * size) := by
        rw [toPtr, Nat.add_mod, scaled, ← Nat.add_mod]

theorem denotes_of_zero {offset : IndexOperand}
    (zero : (offset.resolve.any fun lit => lit.value == 0) = true) : offset.denotes = 0 := by
  cases offset with
  | dynamic type value => cases zero
  | literal lit =>
      have value : lit.value = 0 := by simpa [IndexOperand.resolve] using zero
      simp [IndexOperand.denotes, IntLiteral.denotes, value, IntType.wrap, TwosComplement.reading]

theorem lowerPtrOffset_eq {type : DataType} {offset : IndexOperand} {start i j : Nat}
    (emulated : Emulated type) (fits : Fits config type) (moved : (i : Int) + offset.denotes = j) :
    lowerPtrOffset config type (toPtr config (start + i * (extent config type).size)) offset =
      some (toPtr config (start + j * (extent config type).size)) := by
  rw [lowerPtrOffset]
  split
  case isTrue zero =>
    rw [denotes_of_zero zero] at moved
    have same : i = j := by omega
    rw [same]
  case isFalse _ =>
    rw [getMemLayout_extent type emulated fits, Option.bind_eq_bind, Option.bind_some,
      TypeMemLayout.of, ptrAdd_ptrMul _ moved]

theorem getIntLiteralValue_of_canonical {lit : IntLiteral} (canonical : lit.Canonical) :
    (getIntLiteralValue lit false).toNat = lit.value.toNat := by
  have pattern : lit.type.pattern lit.value.toNat = lit.value.toNat := by
    apply TwosComplement.residue_of_lt _ _ (Int.natCast_nonneg _)
    exact_mod_cast canonical
  have value := getIntLiteralValue_unsigned lit
  rw [pattern] at value
  exact_mod_cast value

theorem lowerChain_append (root : DataType) (address : Nat) (steps : List LeaStep) (step : LeaStep) :
    lowerChain config root address (steps ++ [step]) =
      (lowerChain config root address steps).bind fun pointer => lowerStep config pointer step := by
  rw [lowerChain, List.foldlM_append]
  exact congrArg _ (funext fun pointer => by simp)

theorem componentAddress_element {elementType : DataType} {size : IntLiteral} (i start : Nat)
    (emulated : Emulated (.arr elementType (some size)))
    (fits : Fits config (.arr elementType (some size))) :
    componentAddress config (.arr elementType (some size)) (toPtr config start) i =
      some (toPtr config (start + i * (extent config elementType).size)) := by
  rw [componentAddress, getMemLayout_extent elementType emulated.2 fits.1, Option.bind_eq_bind,
    Option.bind_some, TypeMemLayout.of, iterate_ptrAdd]

theorem lowerStep_element {elementType : DataType} {size : IntLiteral} {index : IndexOperand}
    {i : Nat} (start : Nat) (emulated : Emulated (.arr elementType (some size)))
    (fits : Fits config (.arr elementType (some size))) (indexed : index.denotes = i) :
    lowerStep config (.arr elementType (some size), toPtr config start)
        (.ptrCompositeElement index) =
      some (elementType, toPtr config (start + i * (extent config elementType).size)) := by
  have fromFirst : ((0 : Nat) : Int) + index.denotes = i := by
    rw [indexed]
    simp
  have moved : ptrAdd config (toPtr config (start + 0 * (extent config elementType).size))
      (ptrMul config (convertIndex config index) (extent config elementType).size) =
        toPtr config (start + i * (extent config elementType).size) :=
    ptrAdd_ptrMul _ fromFirst
  rw [Nat.zero_mul, Nat.add_zero] at moved
  simp only [lowerStep, enterCompositeType, lowerPtrIndex,
    getMemLayout_extent elementType emulated.2 fits.1, TypeMemLayout.of, Option.bind_eq_bind,
    Option.bind_some, moved]

/-- A selector of a record is a literal, at whose member both arrive. -/
theorem lowerStep_member {type member : DataType} {members : List DataType} {selector : IntLiteral}
    {base : Nat} (record : type = .record members ∨ type = .typeDeclRef (.record members))
    (canonical : selector.Canonical) (component : type.component selector.value.toNat = some member) :
    lowerStep config (type, base) (.ptrCompositeElement (.literal selector)) =
      (componentAddress config type base selector.value.toNat).map fun address =>
        (member, address) := by
  have listed : members[selector.value.toNat]? = some member := by
    cases record with
    | inl plain => rwa [plain] at component
    | inr named => rwa [named] at component
  have inside := (List.getElem?_eq_some_iff.mp listed).1
  cases record with
  | inl plain =>
      subst plain
      simp only [lowerStep, enterCompositeType, lowerPtrIndex, IndexOperand.resolve,
        getIntLiteralValue_of_canonical canonical, listed, componentAddress, Option.bind_eq_bind,
        Option.bind_some, if_pos inside]
      cases getRecordFieldOffsetInBytes config members selector.value.toNat <;> rfl
  | inr named =>
      subst named
      simp only [lowerStep, enterCompositeType, lowerPtrIndex, IndexOperand.resolve,
        getIntLiteralValue_of_canonical canonical, listed, componentAddress, Option.bind_eq_bind,
        Option.bind_some, if_pos inside]
      cases getRecordFieldOffsetInBytes config members selector.value.toNat <;> rfl

/-- The lowered chain reaches the element of its path, where the store places it. -/
theorem lowerChain_placed {root type : DataType} {steps : List LeaStep} {path : List Nat}
    (emulated : Emulated root) (plain : Plain root) (fits : Fits config root) (address : Nat)
    (chain : Denotes root steps path type) :
    root.at path = some type ∧ ∃ element,
      lowerChain config root (toPtr config address) steps = some (type, element) ∧
      placedAt config root (toPtr config address) path = some element := by
  induction chain with
  | root => exact ⟨rfl, _, rfl, rfl⟩
  | @arrayElement steps path elementType size index i _ indexed inside ih =>
      obtain ⟨found, element, lowered, placed⟩ := ih
      have component : (DataType.arr elementType (some size)).component i = some elementType := by
        rw [DataType.component, if_pos inside]
      obtain ⟨offset, embedded, reached⟩ :
          ∃ offset, Embedded config root (.arr elementType (some size)) offset path ∧
            ∀ address, placedAt config root (toPtr config address) path =
              some (toPtr config (address + offset)) := embedded_at emulated plain fits found
      rw [reached, Option.some.injEq] at placed
      refine ⟨(at_append _ found).trans component,
        toPtr config (address + offset + i * (extent config elementType).size), ?_, ?_⟩
      · rw [lowerChain_append, lowered, Option.bind_some, ← placed]
        exact lowerStep_element _ embedded.emulated embedded.fits indexed
      · rw [placedAt_append found component (reached address)]
        exact componentAddress_element _ _ embedded.emulated embedded.fits
  | @member steps path type member selector _ record canonical component ih =>
      obtain ⟨found, element, lowered, placed⟩ := ih
      obtain ⟨members, record⟩ := record
      obtain ⟨offset, embedded, reached⟩ :
          ∃ offset, Embedded config root type offset path ∧
            ∀ address, placedAt config root (toPtr config address) path =
              some (toPtr config (address + offset)) := embedded_at emulated plain fits found
      obtain ⟨inner, -, handed⟩ :
          ∃ inner, Embedded config type member inner [selector.value.toNat] ∧
            ∀ address, componentAddress config type (toPtr config address) selector.value.toNat =
              some (toPtr config (address + inner)) :=
        embedded_component type embedded.emulated embedded.plain embedded.fits component
      rw [reached, Option.some.injEq] at placed
      refine ⟨(at_append _ found).trans component, toPtr config (address + offset + inner), ?_, ?_⟩
      · rw [lowerChain_append, lowered, Option.bind_some, lowerStep_member record canonical component,
          ← placed, handed, Option.map_some]
      · rw [placedAt_append found component (reached address), handed]
  | @arrayOffset steps path elementType size offset i j _ parent moved inside ih =>
      obtain ⟨found, element, lowered, placed⟩ := ih
      have component : (DataType.arr elementType (some size)).component j = some elementType := by
        rw [DataType.component, if_pos inside]
      obtain ⟨start, embedded, reached⟩ :
          ∃ start, Embedded config root (.arr elementType (some size)) start path ∧
            ∀ address, placedAt config root (toPtr config address) path =
              some (toPtr config (address + start)) := embedded_at emulated plain fits parent
      refine ⟨(at_append _ parent).trans component,
        toPtr config (address + start + j * (extent config elementType).size), ?_, ?_⟩
      · have before := (at_append i parent).symm.trans found
        rw [placedAt_append parent before (reached address),
          componentAddress_element _ _ embedded.emulated embedded.fits, Option.some.injEq] at placed
        rw [lowerChain_append, lowered, Option.bind_some, lowerStep, ← placed,
          lowerPtrOffset_eq embedded.emulated.2 embedded.fits.1 moved]
        rfl
      · rw [placedAt_append parent component (reached address)]
        exact componentAddress_element _ _ embedded.emulated embedded.fits
  | @stay steps path type offset _ zero ih =>
      obtain ⟨found, element, lowered, placed⟩ := ih
      obtain ⟨start, embedded, reached⟩ :
          ∃ start, Embedded config root type start path ∧
            ∀ address, placedAt config root (toPtr config address) path =
              some (toPtr config (address + start)) := embedded_at emulated plain fits found
      refine ⟨found, element, ?_, placed⟩
      rw [reached, Option.some.injEq] at placed
      have same : ((0 : Nat) : Int) + offset.denotes = (0 : Nat) := by
        rw [zero]
        simp
      have still : lowerPtrOffset config type
          (toPtr config (address + start + 0 * (extent config type).size)) offset =
            some (toPtr config (address + start + 0 * (extent config type).size)) :=
        lowerPtrOffset_eq embedded.emulated embedded.fits same
      rw [Nat.zero_mul, Nat.add_zero, placed] at still
      rw [lowerChain_append, lowered, Option.bind_some, lowerStep, still]
      rfl

/-! ## The exact condition -/

/-- No two scalars of the type touch the same word. -/
def Apart (config : PointerModel) (type : DataType) (address : Nat) : Prop :=
  (slots config type address).Pairwise Slot.Disjoint

/-- Loads and stores through a chain agree with those of the whole. -/
theorem embedded_agree {root type : DataType} {offset address : Nat} {path : List Nat}
    (embedded : Embedded config root type offset path) (emulated : Emulated root)
    (plain : Plain root) (fits : Fits config root)
    (inRange : address + (extent config root).size ≤ 2 ^ config.ptrSize.bits)
    (apart : Apart config root address) :
    (∀ value words, HasType config root value →
      ∃ stored component,
        genSerialisation config root (toPtr config address) value words = some stored ∧
        value.extract path = some component ∧
        genDeserialisation config stored type (toPtr config (address + offset)) = some component) ∧
    (∀ value words component,
      genDeserialisation config words root (toPtr config address) = some value →
      HasType config type component →
        ∃ stored whole, genSerialisation config type (toPtr config (address + offset)) component words =
            some stored ∧
          value.insert path component = some whole ∧
          genDeserialisation config stored root (toPtr config address) = some whole) := by
  obtain ⟨before, after, split, values⟩ := embedded.slots address
  have inside : address + offset + (extent config type).size ≤ 2 ^ config.ptrSize.bits := by
    have := embedded.size
    omega
  have loads := fun words =>
    genDeserialisation_eq words type (address + offset) embedded.emulated embedded.plain
      embedded.fits inside
  have loadsWhole := fun words =>
    genDeserialisation_eq words root address emulated plain fits inRange
  constructor
  · intro value words typed
    obtain ⟨component, front, back, extracted, typed', inFront, inBack, leaves, -⟩ :=
      values value typed
    obtain ⟨found, loaded, foundTyped, foundLeaves⟩ :=
      loads (storeAll (slots config root address) value.leaves words)
    have kept := WordArray.loadAll_storeAll apart (inSlots_leaves root value address typed) words
    rw [leaves] at kept
    conv at kept => lhs; rw [split]
    rw [WordArray.loadAll_append, WordArray.loadAll_append] at kept
    have parts := List.append_inj kept (by rw [loadAll, List.length_map, inFront.length_eq])
    have middle := List.append_inj parts.2
      (by rw [loadAll, List.length_map, (inSlots_leaves type component _ typed').length_eq])
    rw [split, leaves, middle.1] at foundLeaves
    refine ⟨_, component, genSerialisation_eq root address value words emulated plain fits inRange
      typed, extracted, ?_⟩
    rw [loaded, leaves_inj type found component embedded.plain foundTyped typed' foundLeaves]
  · intro value words component loaded typed
    obtain ⟨value', loaded', valueTyped, valueLeaves⟩ := loadsWhole words
    rw [loaded, Option.some.injEq] at loaded'
    subst loaded'
    obtain ⟨old, front, back, -, oldTyped, inFront, inBack, leaves, put⟩ := values value valueTyped
    obtain ⟨whole, inserted, wholeTyped, wholeLeaves⟩ := put component typed
    have stored := genSerialisation_eq type (address + offset) component words embedded.emulated
      embedded.plain embedded.fits inside typed
    refine ⟨_, whole, stored, inserted, ?_⟩
    obtain ⟨found, reloaded, foundTyped, foundLeaves⟩ := loadsWhole
      (storeAll (slots config type (address + offset)) component.leaves words)
    rw [reloaded]
    congr 1
    apply leaves_inj root found whole plain foundTyped wholeTyped
    -- the slots around those of the element keep what they hold
    rw [Apart, split, List.pairwise_append, List.pairwise_append] at apart
    obtain ⟨-, ⟨middleApart, -, middleAfter⟩, beforeRest⟩ := apart
    have keepFront : loadAll before
        (storeAll (slots config type (address + offset)) component.leaves words) =
          loadAll before words :=
      WordArray.loadAll_congr fun slot listed index held =>
        WordArray.storeAll_outside fun other listed' =>
          beforeRest slot listed other (List.mem_append_left _ listed') index held
    have keepBack : loadAll after
        (storeAll (slots config type (address + offset)) component.leaves words) =
          loadAll after words :=
      WordArray.loadAll_congr fun slot listed index held =>
        WordArray.storeAll_outside fun other listed' =>
          (middleAfter other listed' slot listed).symm index held
    rw [leaves, split, WordArray.loadAll_append, WordArray.loadAll_append] at valueLeaves
    have parts := List.append_inj valueLeaves (by rw [loadAll, List.length_map, inFront.length_eq])
    have middle := List.append_inj parts.2 (by
      rw [loadAll, List.length_map, (inSlots_leaves type old _ oldTyped).length_eq])
    rw [foundLeaves, wholeLeaves, split, WordArray.loadAll_append, WordArray.loadAll_append,
      keepFront, keepBack,
      WordArray.loadAll_storeAll middleApart (inSlots_leaves type component _ typed),
      parts.1, middle.2]

/-- The address arithmetic agrees with the stores and loads for every chain exactly for a type
without booleans whose scalars lie in words of their own. -/
theorem addressesAgree_iff_apart {root : DataType} {layout : TypeMemLayout} {address : Nat}
    (emulated : Emulated root) (fits : Fits config root)
    (found : getMemLayout config root = some layout)
    (inRange : address + layout.sizeInBytes ≤ 2 ^ config.ptrSize.bits)
    (below : address < 2 ^ config.ptrSize.bits) :
    AddressesAgree config root address ↔ Plain root ∧ Apart config root address := by
  rw [getMemLayout_eq config root layout fits found, TypeMemLayout.of] at inRange
  constructor
  · intro agree
    have round : RoundTrips config root address := by
      intro value words typed
      obtain ⟨element, lowered, -, loads, -⟩ := agree [] [] root Denotes.root
      obtain ⟨stored, component, ran, extracted, loaded⟩ := loads value words typed
      cases lowered
      cases extracted
      exact ⟨stored, ran, loaded⟩
    have plain := round.plain emulated
    exact ⟨plain, (roundTrips_iff_disjoint emulated plain fits inRange below).mp round⟩
  · intro condition steps path type chain
    obtain ⟨at_, element, lowered, placed⟩ :=
      lowerChain_placed emulated condition.1 fits address chain
    obtain ⟨offset, embedded, reached⟩ :
        ∃ offset, Embedded config root type offset path ∧
          ∀ address, placedAt config root (toPtr config address) path =
            some (toPtr config (address + offset)) := embedded_at emulated condition.1 fits at_
    rw [reached, Option.some.injEq] at placed
    have agree := embedded_agree embedded emulated condition.1 fits inRange condition.2
    rw [placed, toPtr_eq below] at agree
    rw [toPtr_eq below] at lowered
    have placed' := reached address
    rw [toPtr_eq below, placed] at placed'
    exact ⟨element, lowered, placed', agree⟩

/-- At the beginning of a word it is the rows that keep the scalars apart. -/
theorem apart_iff_wordRows {type : DataType} {address : Nat}
    (aligned : config.wordSize.sizeInBytes ∣ address) :
    Apart config type address ↔ WordRows config type :=
  ⟨wordRows_of_disjoint type address aligned, fun rows => slots_disjoint type address rows aligned⟩

/-- An array of records of a byte and a word, with words of 32 bits. -/
theorem arrayOfRecords_addressesAgree :
    AddressesAgree ⟨.intTy64, .intTy32⟩
      (.arr (.record [.int .intTy8 false, .int .intTy32 true]) (some (int32Literal 3))) 16 := by
  have emulated : Emulated
      (.arr (.record [.int .intTy8 false, .int .intTy32 true]) (some (int32Literal 3))) :=
    ⟨rfl, trivial, trivial, trivial⟩
  have fits : Fits ⟨.intTy64, .intTy32⟩
      (.arr (.record [.int .intTy8 false, .int .intTy32 true]) (some (int32Literal 3))) :=
    ⟨⟨⟨trivial, trivial, trivial⟩, by decide⟩, by decide⟩
  have found : getMemLayout ⟨.intTy64, .intTy32⟩
      (.arr (.record [.int .intTy8 false, .int .intTy32 true]) (some (int32Literal 3))) =
        some ⟨24, 4⟩ := by decide
  apply (addressesAgree_iff_apart emulated fits found (by decide) (by decide)).mpr
  refine ⟨Or.inr ⟨trivial, trivial, trivial⟩, (apart_iff_wordRows (by decide)).mpr ?_⟩
  exact Or.inr ⟨⟨trivial, trivial, trivial⟩, Or.inr (by decide)⟩

/-- The bytes of an array share a word, and a store to the second clears the first. -/
theorem bytes_break_addresses : ¬ ∀ (config : PointerModel) (root : DataType)
    (layout : TypeMemLayout) (address : Nat), Emulated root → Fits config root →
    getMemLayout config root = some layout →
    address + layout.sizeInBytes ≤ 2 ^ config.ptrSize.bits → address < 2 ^ config.ptrSize.bits →
      AddressesAgree config root address := by
  intro always
  have agree := always ⟨.intTy64, .intTy32⟩ (.arr (.int .intTy8 false) (some (int32Literal 2)))
    ⟨2, 4⟩ 8 ⟨rfl, trivial⟩ ⟨trivial, by decide⟩ (by decide) (by decide) (by decide)
  have first : Denotes (.arr (.int .intTy8 false) (some (int32Literal 2)))
      [.ptrCompositeElement (.literal (int32Literal 0))] [0] (.int .intTy8 false) :=
    Denotes.arrayElement Denotes.root (by decide) (by decide)
  obtain ⟨element, lowered, -, loads, -⟩ := agree _ _ _ first
  have address : (lowerChain ⟨.intTy64, .intTy32⟩
      (.arr (.int .intTy8 false) (some (int32Literal 2))) 8
      [.ptrCompositeElement (.literal (int32Literal 0))]).map Prod.snd = some 8 := by decide
  rw [lowered] at address
  cases address
  have typed : HasType ⟨.intTy64, .intTy32⟩ (.arr (.int .intTy8 false) (some (int32Literal 2)))
      (.composite [.scalar 1, .scalar 0]) := by
    refine ⟨by decide, ?_⟩
    rw [List.forall_mem_cons, List.forall_mem_singleton]
    exact ⟨(by decide : 1 < 2 ^ IntSizes.intTy8.bits), (by decide : 0 < 2 ^ IntSizes.intTy8.bits)⟩
  obtain ⟨stored, component, ran, extracted, loaded⟩ := loads _ (fun _ => 0) typed
  cases ran
  cases extracted
  have leaves := congrArg (Option.map StoredValue.leaves) loaded
  revert leaves
  decide

end Exact

end Shady
