import Shady.Passes.LowerLeaExact
import Shady.Passes.SubgroupVars

/-!
# Every subgroup has its slice

An access that stays inside of a subgroup variable stays inside of the slice of the subgroup,
and the shared arrays hold the objects of all subgroups next to each other.
-/

set_option autoImplicit false

namespace Shady

/-! ## Addresses in a slice -/

mutual

theorem element_rewriteType (i : Nat) : ∀ type : DataType,
    (rewriteType type).element i = (type.element i).map rewriteType
  | .arr elementType none => by simp [rewriteType, DataType.element]
  | .arr elementType (some size) => by
      simp only [rewriteType, DataType.element]
      split <;> rfl
  | .pack elementType width => by
      simp only [rewriteType, DataType.element]
      split <;> rfl
  | .record members => elements_rewriteTypes members i
  | .typeDeclRef body => element_rewriteType i body
  | .int _ _ | .float _ | .bool | .ptr _ | .fn | .other => rfl
  | .qualified _ _ => rfl

theorem elements_rewriteTypes : ∀ (members : List DataType) (i : Nat),
    (rewriteTypes members)[i]? = (members[i]?).map rewriteType
  | [], _ => rfl
  | member :: members, 0 => rfl
  | member :: members, i + 1 => elements_rewriteTypes members i

end

theorem rowCount_rewriteType (type : DataType) : (rewriteType type).rowCount = type.rowCount := by
  fun_induction DataType.rowCount type with
  | case1 elementType size => rfl
  | case2 body ih => exact ih
  | case3 type notRow notNamed =>
      cases type with
      | arr elementType size =>
          cases size with
          | none => rfl
          | some size => exact absurd rfl (notRow elementType size)
      | typeDeclRef body => exact absurd rfl (notNamed body)
      | _ => rfl

theorem elementAt_rewriteType (path : List Nat) : ∀ type : DataType,
    (rewriteType type).elementAt path = (type.elementAt path).map rewriteType := by
  induction path with
  | nil => exact fun _ => rfl
  | cons i path ih =>
      intro type
      simp only [DataType.elementAt, element_rewriteType]
      cases type.element i with
      | none => rfl
      | some element => exact ih element

/-- The array that a subgroup variable becomes. -/
def sliceArray (subgroups : BitVec 32) (type : DataType) : DataType :=
  .arr (rewriteType type) (some (uint32Literal subgroups))

theorem literalCount_subgroups (subgroups : BitVec 32) :
    literalCount (uint32Literal subgroups) = subgroups.toNat := by
  have canonical : (uint32Literal subgroups).Canonical := intLiteralHelper_canonical .intTy32 false subgroups
  have small := subgroups.isLt
  rw [literalCount, getIntLiteralValue_of_canonical canonical]
  change (subgroups.setWidth 64).toNat = subgroups.toNat
  rw [BitVec.toNat_setWidth]
  omega

section Slices
variable {subgroups : BitVec 32} {subgroup : Nat} {root : DataType}

theorem sliceArray_element (inside : subgroup < subgroups.toNat) :
    (sliceArray subgroups root).element subgroup = some (rewriteType root) := by
  rw [sliceArray, DataType.element, literalCount_subgroups, if_pos inside]

end Slices

theorem elementAt_append (path later : List Nat) : ∀ type : DataType,
    type.elementAt (path ++ later) = (type.elementAt path).bind fun element => element.elementAt later := by
  induction path with
  | nil => exact fun _ => rfl
  | cons i path ih =>
      intro type
      simp only [List.cons_append, DataType.elementAt, Option.bind_assoc, ih]

section Within
variable {root whole : DataType} {front : List Nat}

/-- A step that stays inside of a variable stays inside of its place in a larger one. -/
theorem placeStep_within (part : whole.elementAt front = some (rewriteType root))
    {place place' : List Nat × DataType} {step : LeaStep} (stays : placeStep root place step = some place') :
    placeStep whole (front ++ place.1, rewriteType place.2) step
      = some (front ++ place'.1, rewriteType place'.2) := by
  obtain ⟨path, type⟩ := place
  cases step with
  | ptrCompositeElement index =>
      simp only [placeStep] at stays ⊢
      split_ifs at stays with forward
      obtain ⟨element, found, rfl⟩ := Option.map_eq_some_iff.mp stays
      rw [if_pos forward, element_rewriteType, found, Option.map_some, Option.map_some, List.append_assoc]
  | ptrArrayElementOffset offset =>
      simp only [placeStep] at stays ⊢
      split_ifs at stays with zero
      · cases stays
        rw [if_pos zero]
      · obtain ⟨i, last, stays⟩ := Option.bind_eq_some_iff.mp stays
        obtain ⟨row, found, stays⟩ := Option.bind_eq_some_iff.mp stays
        obtain ⟨count, counted, stays⟩ := Option.bind_eq_some_iff.mp stays
        split_ifs at stays with moves
        cases stays
        have nonempty : path ≠ [] := by
          intro empty
          rw [empty] at last
          cases last
        have last' : (front ++ path).getLast? = some i := by
          rw [List.getLast?_append_of_ne_nil front nonempty, last]
        have found' : whole.elementAt (front ++ path.dropLast) = some (rewriteType row) := by
          rw [elementAt_append, part, Option.bind_some, elementAt_rewriteType, found, Option.map_some]
        have counted' : (rewriteType row).rowCount = some count := by
          rw [rowCount_rewriteType, counted]
        rw [if_neg zero, last', List.dropLast_append_of_ne_nil nonempty]
        simp only [found', counted', Option.bind_eq_bind, Option.bind_some, if_pos moves, List.append_assoc]

theorem placeSteps_within (part : whole.elementAt front = some (rewriteType root)) (steps : List LeaStep) :
    ∀ place place' : List Nat × DataType, steps.foldlM (placeStep root) place = some place' →
      steps.foldlM (placeStep whole) (front ++ place.1, rewriteType place.2)
        = some (front ++ place'.1, rewriteType place'.2) := by
  induction steps with
  | nil =>
      intro place place' stays
      cases stays
      rfl
  | cons step steps ih =>
      intro place place' stays
      rw [List.foldlM_cons] at stays ⊢
      obtain ⟨next, one, rest⟩ := Option.bind_eq_some_iff.mp stays
      rw [placeStep_within part one]
      exact ih next place' rest

/-- An access to any other variable is the same. -/
theorem placeOf_rewriteType {steps : List LeaStep} {place : List Nat × DataType}
    (stays : placeOf root steps = some place) :
    placeOf (rewriteType root) steps = some (place.1, rewriteType place.2) := by
  have itself : (rewriteType root).elementAt [] = some (rewriteType root) := rfl
  exact placeSteps_within itself steps ([], root) place stays

end Within

section Slices
variable {subgroups : BitVec 32} {subgroup : Nat} {root : DataType}

theorem denotes_subgroup (small : subgroup < 2 ^ 32) :
    (IndexOperand.dynamic ⟨.intTy32, false⟩ (subgroup : Int)).denotes = subgroup := by
  change TwosComplement.reading 32 false subgroup = subgroup
  rw [TwosComplement.unsigned_reading_eq_residue]
  exact TwosComplement.residue_of_lt 32 _ (Int.natCast_nonneg subgroup) (by exact_mod_cast small)

/-- `SubgroupId` selects the slice of the subgroup if the array has one for it. -/
theorem placeOf_sliceSteps (root : DataType) (small : subgroup < 2 ^ 32) (steps : List LeaStep) :
    placeOf (sliceArray subgroups root) (sliceSteps subgroup ++ steps) =
      if subgroup < subgroups.toNat then
        steps.foldlM (placeStep (sliceArray subgroups root)) ([subgroup], rewriteType root)
      else none := by
  have zero : (IndexOperand.literal (int32Literal 0)).denotes = 0 := rfl
  have forward : (0 : Int) ≤ subgroup := Int.natCast_nonneg subgroup
  simp only [placeOf, sliceSteps, List.cons_append, List.nil_append, List.foldlM_cons, placeStep, zero,
    if_true, Option.bind_eq_bind, Option.bind_some, denotes_subgroup small, if_pos forward, Int.toNat_natCast]
  split_ifs with inside
  · rw [sliceArray_element inside]
    rfl
  · rw [sliceArray, DataType.element, literalCount_subgroups, if_neg inside]
    rfl

theorem placeOf_slice (inside : subgroup < subgroups.toNat) {steps : List LeaStep}
    {place : List Nat × DataType} (stays : placeOf root steps = some place) :
    placeOf (sliceArray subgroups root) (sliceSteps subgroup ++ steps)
      = some (subgroup :: place.1, rewriteType place.2) := by
  rw [placeOf_sliceSteps root (Nat.lt_trans inside subgroups.isLt), if_pos inside]
  have part : (sliceArray subgroups root).elementAt [subgroup] = some (rewriteType root) := by
    rw [DataType.elementAt, sliceArray_element inside, Option.bind_some, DataType.elementAt]
  exact placeSteps_within part steps ([], root) place stays

end Slices

/-! ## The memory of a workgroup -/

section Memory
variable {m : VariableModule} {subgroups : BitVec 32} {mem after : GroupMemory} {subgroup : Nat}

/-- The module after the pass. -/
def VariableModule.lowered (m : VariableModule) (subgroups : BitVec 32) : VariableModule :=
  { m with globalVariables := m.globalVariables.map (lowerGlobalVariable subgroups) }

theorem slices_insert (objects : Nat → StoredValue) {count : Nat} (inside : subgroup < count)
    {path : List Nat} {value changed : StoredValue}
    (inserted : (objects subgroup).insert path value = some changed) :
    (StoredValue.composite ((List.range count).map objects)).insert (subgroup :: path) value
      = some (.composite ((List.range count).map (Function.update objects subgroup changed))) := by
  have element : ((List.range count).map objects)[subgroup]? = some (objects subgroup) := by
    rw [List.getElem?_map, List.getElem?_range inside, Option.map_some]
  simp only [StoredValue.insert, element, Option.bind_eq_bind, Option.bind_some, inserted]
  congr 2
  apply List.ext_getElem?
  intro i
  rw [List.getElem?_set, List.getElem?_map, List.getElem?_map, List.length_map, List.length_range]
  by_cases same : subgroup = i
  · subst same
    rw [if_pos rfl, if_pos inside, List.getElem?_range inside, Option.map_some, Function.update_self]
  · rw [if_neg same]
    cases found : (List.range count)[i]? with
    | none => rfl
    | some j =>
        obtain ⟨_, rfl⟩ := List.getElem?_eq_some_iff.mp found
        rw [List.getElem_range] at found ⊢
        rw [Option.map_some, Option.map_some, Function.update_of_ne (Ne.symm same)]

theorem slices_extract (objects : Nat → StoredValue) {count : Nat} (inside : subgroup < count)
    (path : List Nat) :
    (StoredValue.composite ((List.range count).map objects)).extract (subgroup :: path)
      = (objects subgroup).extract path := by
  have element : ((List.range count).map objects)[subgroup]? = some (objects subgroup) := by
    rw [List.getElem?_map, List.getElem?_range inside, Option.map_some]
  simp only [StoredValue.extract, element, Option.bind_eq_bind, Option.bind_some]

theorem lowerGlobalVariable_subgroup (subgroups : BitVec 32) (subgroup : Nat) {v : GlobalVariable}
    (isSubgroup : v.addressSpace = .subgroup) :
    (lowerGlobalVariable subgroups v).type = sliceArray subgroups v.type ∧
      (lowerGlobalVariable subgroups v).owner subgroup = none := by
  rw [lowerGlobalVariable, if_pos isSubgroup]
  exact ⟨rfl, rfl⟩

theorem lowerGlobalVariable_other (subgroups : BitVec 32) (subgroup : Nat) {v : GlobalVariable}
    (isOther : v.addressSpace ≠ .subgroup) :
    (lowerGlobalVariable subgroups v).type = rewriteType v.type ∧
      (lowerGlobalVariable subgroups v).owner subgroup = none := by
  rw [lowerGlobalVariable, if_neg isOther]
  refine ⟨rfl, ?_⟩
  rw [GlobalVariable.owner, if_neg isOther]

theorem lowered_getElem? (decl : Nat) :
    (m.lowered subgroups).globalVariables[decl]? = (m.globalVariables[decl]?).map (lowerGlobalVariable subgroups) :=
  List.getElem?_map

/-- A store to the object of a subgroup is one to its slice. -/
theorem sliced_update_subgroup {decl : Nat} {v : GlobalVariable} (found : m.globalVariables[decl]? = some v)
    (isSubgroup : v.addressSpace = .subgroup) (count : Nat) (changed : StoredValue) :
    sliced m count (Function.update mem decl (Function.update (mem decl) (some subgroup) changed))
      = Function.update (sliced m count mem) decl (Function.update (sliced m count mem decl) none
          (.composite ((List.range count).map
            (Function.update (fun subgroup => mem decl (some subgroup)) subgroup changed)))) := by
  funext decl' owner
  by_cases same : decl' = decl
  · subst same
    rw [Function.update_self]
    cases owner with
    | some other =>
        rw [Function.update_of_ne (Option.some_ne_none other)]
        simp only [sliced, found, if_pos isSubgroup]
    | none =>
        rw [Function.update_self]
        simp only [sliced, found, if_pos isSubgroup, Function.update_self]
        congr 1
        refine List.map_congr_left fun other _ => ?_
        simp only [Function.update_apply, Option.some.injEq]
  · rw [Function.update_of_ne same]
    simp only [sliced, Function.update_of_ne same]

theorem sliced_update_other {decl : Nat} {v : GlobalVariable} (found : m.globalVariables[decl]? = some v)
    (isOther : v.addressSpace ≠ .subgroup) (count : Nat) (object : Option Nat → StoredValue) :
    sliced m count (Function.update mem decl object) = Function.update (sliced m count mem) decl object := by
  funext decl' owner
  by_cases same : decl' = decl
  · subst same
    simp only [sliced, found, if_neg isOther, Function.update_self]
  · rw [Function.update_of_ne same]
    simp only [sliced, Function.update_of_ne same]

/-- An access that stays inside of its variable is the same access on the slices. -/
theorem performAccess_sliced (inside : subgroup < subgroups.toNat) {access : VariableAccess}
    {done : Option StoredValue × GroupMemory} (performs : performAccess m mem subgroup access = some done) :
    performAccess (m.lowered subgroups) (sliced m subgroups.toNat mem) subgroup (lowerAccess m subgroup access)
      = some (done.1, sliced m subgroups.toNat done.2) := by
  obtain ⟨decl, steps, stored⟩ := access
  obtain ⟨v, found, performs⟩ := Option.bind_eq_some_iff.mp performs
  obtain ⟨place, stays, performs⟩ := Option.bind_eq_some_iff.mp performs
  dsimp only at found stays performs
  by_cases isSubgroup : v.addressSpace = .subgroup
  · have owner : v.owner subgroup = some subgroup := if_pos isSubgroup
    have object : sliced m subgroups.toNat mem decl none
        = .composite ((List.range subgroups.toNat).map fun subgroup => mem decl (some subgroup)) := by
      simp only [sliced, found, if_pos isSubgroup]
    obtain ⟨type', owner'⟩ := lowerGlobalVariable_subgroup subgroups subgroup isSubgroup
    simp only [performAccess, lowerAccess, found, if_pos isSubgroup, lowered_getElem?, Option.map_some,
      Option.bind_eq_bind, Option.bind_some, type', owner', placeOf_slice inside stays, object]
    rw [owner] at performs
    cases stored with
    | none =>
        obtain ⟨value, loaded, performs⟩ := Option.bind_eq_some_iff.mp performs
        cases performs
        have loaded' := slices_extract (fun subgroup => mem decl (some subgroup)) inside place.1
        dsimp only at loaded' ⊢
        rw [loaded', loaded, Option.bind_some]
    | some value =>
        obtain ⟨changed, inserted, performs⟩ := Option.bind_eq_some_iff.mp performs
        cases performs
        have inserted' := slices_insert (fun subgroup => mem decl (some subgroup)) inside inserted
        dsimp only
        rw [inserted', Option.bind_some, sliced_update_subgroup found isSubgroup]
  · have owner : v.owner subgroup = none := if_neg isSubgroup
    have object : sliced m subgroups.toNat mem decl = mem decl := by
      funext owner
      simp only [sliced, found, if_neg isSubgroup]
    obtain ⟨type', owner'⟩ := lowerGlobalVariable_other subgroups subgroup isSubgroup
    simp only [performAccess, lowerAccess, found, if_neg isSubgroup, lowered_getElem?, Option.map_some,
      Option.bind_eq_bind, Option.bind_some, type', owner', placeOf_rewriteType stays, object]
    rw [owner] at performs
    cases stored with
    | none =>
        obtain ⟨value, loaded, performs⟩ := Option.bind_eq_some_iff.mp performs
        cases performs
        dsimp only
        rw [loaded, Option.bind_some]
    | some value =>
        obtain ⟨changed, inserted, performs⟩ := Option.bind_eq_some_iff.mp performs
        cases performs
        dsimp only
        rw [inserted, Option.bind_some, sliced_update_other found isSubgroup]

/-- The same for accesses of all subgroups in any order. -/
theorem performAll_sliced (run : List (Nat × VariableAccess)) :
    ∀ (mem : GroupMemory) (done : List (Option StoredValue) × GroupMemory),
      (∀ step ∈ run, step.1 < subgroups.toNat) → performAll m run mem = some done →
      performAll (m.lowered subgroups) (lowerRun m run) (sliced m subgroups.toNat mem)
        = some (done.1, sliced m subgroups.toNat done.2) := by
  induction run with
  | nil =>
      intro mem done _ performs
      cases performs
      rfl
  | cons step run ih =>
      intro mem done inside performs
      obtain ⟨subgroup, access⟩ := step
      obtain ⟨first, one, performs⟩ := Option.bind_eq_some_iff.mp performs
      obtain ⟨rest, later, rfl⟩ := Option.map_eq_some_iff.mp performs
      have one' := performAccess_sliced (inside _ List.mem_cons_self) one
      have later' := ih first.2 rest (fun step member => inside step (List.mem_cons_of_mem _ member)) later
      rw [lowerRun, List.map_cons, performAll, one', Option.bind_some]
      rw [lowerRun] at later'
      rw [later', Option.map_some]

theorem performAll_constants (constants : List (String × BitVec 32)) (run : List (Nat × VariableAccess)) :
    ∀ mem, performAll { m with constants := constants } run mem = performAll m run mem := by
  induction run with
  | nil => exact fun _ => rfl
  | cons step run ih =>
      intro mem
      rw [performAll, performAll]
      simp only [ih]
      rfl

/-- The arrays start with the initial values of all subgroups. -/
theorem sliced_initialMemory (undefined : GroupMemory) (decl : Nat) :
    initialMemory (m.lowered subgroups) (sliced m subgroups.toNat undefined) decl none
      = sliced m subgroups.toNat (initialMemory m undefined) decl none := by
  cases found : m.globalVariables[decl]? with
  | none => simp only [sliced, initialMemory, lowered_getElem?, found, Option.map_none]
  | some v =>
      simp only [sliced, initialMemory, lowered_getElem?, found, Option.map_some, lowerGlobalVariable]
      by_cases isSubgroup : v.addressSpace = .subgroup
      · simp only [if_pos isSubgroup]
        cases v.init with
        | none => simp only [Option.map_none, Option.getD_none]
        | some value => simp only [Option.map_some, Option.getD_some, List.map_const', List.length_range]
      · simp only [if_neg isSubgroup]

end Memory

/-! ## The two passes -/

theorem lookup_specialized (constants : List (String × BitVec 32)) (value : BitVec 32) (rest : BitVec 32) :
    ((constants ++ [("SUBGROUP_SIZE", rest), ("SUBGROUPS_PER_WG", 1)]).map fun constant =>
      if constant.1 = "SUBGROUPS_PER_WG" then (constant.1, value) else constant).lookup "SUBGROUPS_PER_WG"
      = some value := by
  induction constants with
  | nil => rfl
  | cons constant constants ih =>
      obtain ⟨name, old⟩ := constant
      rw [List.cons_append, List.map_cons]
      by_cases own : name = "SUBGROUPS_PER_WG"
      · simp [own]
      · have apart : ("SUBGROUPS_PER_WG" == name) = false := beq_eq_false_iff_ne.mpr (Ne.symm own)
        rw [if_neg own, List.lookup_cons, apart]
        exact ih

theorem compileVariables_eq {wgSize : WorkgroupSize} {subgroupSize : BitVec 32} (m : VariableModule)
    (positive : 0 < wgSize.invocations) (small : wgSize.invocations < 2 ^ 32) (sized : 0 < subgroupSize.toNat) :
    ∃ constants, compileVariables wgSize subgroupSize m
      = some ({ m with constants := constants }.lowered (subgroupsPerWg wgSize subgroupSize)) := by
  have product : wgSize.x * wgSize.y * wgSize.z ≠ 0 := by
    intro zero
    have toNat := WorkgroupSize.product_toNat small
    rw [zero] at toNat
    exact absurd toNat.symm (Nat.ne_of_gt positive)
  have size : subgroupSize ≠ 0 := by
    intro zero
    rw [zero] at sized
    exact Nat.lt_irrefl 0 sized
  rw [compileVariables, specializeEntryPoint, if_neg product, if_neg size, Option.bind_some, lowerSubgroupVars]
  dsimp only [generateDummyConstants]
  rw [lookup_specialized]
  exact ⟨_, rfl⟩

theorem extract_insert_of_ne {object changed stored : StoredValue} {i j : Nat} {path path' : List Nat}
    (apart : i ≠ j) (inserted : object.insert (i :: path) stored = some changed) :
    changed.extract (j :: path') = object.extract (j :: path') := by
  cases object with
  | scalar bits => cases inserted
  | bool value => cases inserted
  | composite components =>
      obtain ⟨component, -, inserted⟩ := Option.bind_eq_some_iff.mp inserted
      obtain ⟨replaced, -, inserted⟩ := Option.bind_eq_some_iff.mp inserted
      cases inserted
      rw [StoredValue.extract, StoredValue.extract, List.getElem?_set_ne apart]

def oneSubgroupVariable : VariableModule := ⟨[], [⟨.subgroup, .int .intTy32 false, none⟩]⟩

/-- If all subgroups are full or there is only one, every access that stays inside of a
    subgroup variable stays inside of the slice of its subgroup, different subgroups have
    different slices, and in every order of accesses the subgroups read what they read from
    variables of their own. -/
theorem subgroupVars_private {wgSize : WorkgroupSize} {subgroupSize : BitVec 32} (m : VariableModule)
    (positive : 0 < wgSize.invocations) (small : wgSize.invocations < 2 ^ 32) (sized : 0 < subgroupSize.toNat)
    (full : wgSize.FullSubgroups subgroupSize) :
    ∃ m', compileVariables wgSize subgroupSize m = some m' ∧
      (∀ (decl : Nat) (v : GlobalVariable), m.globalVariables[decl]? = some v → v.addressSpace = .subgroup →
        ∃ v' : GlobalVariable, m'.globalVariables[decl]? = some v' ∧ v'.addressSpace = .shared ∧
          ∀ subgroup, subgroup < wgSize.subgroups subgroupSize →
            ∀ steps place, placeOf v.type steps = some place →
              placeOf v'.type (sliceSteps subgroup ++ steps)
                = some (subgroup :: place.1, rewriteType place.2)) ∧
      (∀ (object changed stored : StoredValue) (writer reader : Nat) (path path' : List Nat),
        writer ≠ reader → object.insert (writer :: path) stored = some changed →
        changed.extract (reader :: path') = object.extract (reader :: path')) ∧
      ∃ count, ∀ undefined,
        (∀ decl, initialMemory m' (sliced m count undefined) decl none
          = sliced m count (initialMemory m undefined) decl none) ∧
        ∀ run values after, (∀ step ∈ run, step.1 < wgSize.subgroups subgroupSize) →
          performAll m run (initialMemory m undefined) = some (values, after) →
          performAll m' (lowerRun m run) (sliced m count (initialMemory m undefined))
            = some (values, sliced m count after) := by
  obtain ⟨constants, compiled⟩ := compileVariables_eq m positive small sized
  have enough := (WorkgroupSize.subgroups_le_iff small sized).mpr full
  refine ⟨_, compiled, fun decl v found isSubgroup => ?_,
    fun object changed stored writer reader path path' apart inserted => extract_insert_of_ne apart inserted,
    (subgroupsPerWg wgSize subgroupSize).toNat, fun undefined => ⟨sliced_initialMemory undefined, ?_⟩⟩
  · refine ⟨lowerGlobalVariable (subgroupsPerWg wgSize subgroupSize) v, ?_, ?_, ?_⟩
    · rw [lowered_getElem?, found, Option.map_some]
    · rw [lowerGlobalVariable, if_pos isSubgroup]
    · intro subgroup launched steps place stays
      rw [(lowerGlobalVariable_subgroup _ subgroup isSubgroup).1]
      exact placeOf_slice (Nat.lt_of_lt_of_le launched enough) stays
  · intro run values after launched performs
    rw [← performAll_constants constants] at performs
    exact performAll_sliced run _ (values, after)
      (fun step member => Nat.lt_of_lt_of_le (launched step member) enough) performs

/-- Two full subgroups and an integer for each. -/
theorem twoSubgroups_private : ∃ m', compileVariables ⟨4, 1, 1⟩ 2 oneSubgroupVariable = some m' ∧
    ∃ v' : GlobalVariable, m'.globalVariables[0]? = some v' ∧
      placeOf v'.type (sliceSteps 1) = some ([1], .int .intTy32 false) := by
  have full : WorkgroupSize.FullSubgroups ⟨4, 1, 1⟩ 2 := .inr (by decide)
  obtain ⟨m', compiled, inside, -⟩ :=
    subgroupVars_private oneSubgroupVariable (by decide) (by decide) (by decide) full
  obtain ⟨v', found, -, slices⟩ := inside 0 ⟨.subgroup, .int .intTy32 false, none⟩ rfl rfl
  exact ⟨m', compiled, v', found, slices 1 (by decide) [] ([], .int .intTy32 false) rfl⟩

/-- The third invocation is in a second subgroup, which has no slice. -/
theorem partialSubgroup_outside : ¬ ∃ m', compileVariables ⟨3, 1, 1⟩ 2 oneSubgroupVariable = some m' ∧
    ∀ v' ∈ m'.globalVariables, ∀ subgroup, subgroup < WorkgroupSize.subgroups ⟨3, 1, 1⟩ 2 →
      (placeOf v'.type (sliceSteps subgroup)).isSome = true := by
  intro inside
  obtain ⟨m', compiled, inside⟩ := inside
  cases compiled
  exact absurd (inside _ List.mem_cons_self 1 (by decide)) (by decide)

end Shady
