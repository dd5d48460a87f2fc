import Mathlib.Data.List.Pairwise
import Shady.Frontend.SpirvBodies
import Shady.Frontend.SpirvMeaning

/-!
# Which functions in SPIR-V are kept

A function with a block stops the front-end: the body of the first block, which the function takes
over, starts at the block and not at the function. What is left are declarations, whose members are
taken from the word behind the right one.
-/

set_option autoImplicit false

namespace Shady.S2s

open Stateful

/-! ## Annotations -/

/-- What the parser attaches for an annotation. -/
def Instruction.attached (a : Instruction) : List (SpvId × SpvDeco) :=
  match a.op, a.operands with
  | .opMemberName, target :: _ :: word :: rest =>
      [(target.toNat, ⟨.shdMemberName, word.toInt, .str (decodeSpvStringLiteral (word :: rest))⟩)]
  | .opMemberDecorate, target :: _ :: number :: data =>
      [(target.toNat, ⟨.decoration number, number.toInt, .literals data⟩)]
  | _, _ => a.attaches

def SpvParser.decorated (st : SpvParser) (entries : List (SpvId × SpvDeco)) : SpvParser :=
  { st with decorations := fun id => st.decorations id ++ decorationsOf entries id }

theorem decorationsOf_append (first second : List (SpvId × SpvDeco)) (id : SpvId) :
    decorationsOf (first ++ second) id = decorationsOf first id ++ decorationsOf second id := by
  simp only [decorationsOf, List.filter_append, List.map_append]

theorem SpvParser.decorated_nil (st : SpvParser) : st.decorated [] = st := by
  simp [SpvParser.decorated, decorationsOf]

theorem SpvParser.decorated_decorated (st : SpvParser) (first second : List (SpvId × SpvDeco)) :
    (st.decorated first).decorated second = st.decorated (first ++ second) := by
  simp only [SpvParser.decorated, decorationsOf_append, List.append_assoc]

theorem addDecoration_run (id : SpvId) (deco : SpvDeco) (st : SpvParser) :
    (addDecoration id deco).run st = .ok ((), st.decorated [(id, deco)]) := by
  have entry : ∀ other, (if other = id then st.decorations other ++ [deco] else st.decorations other)
      = st.decorations other ++ decorationsOf [(id, deco)] other := by
    intro other
    by_cases same : other = id
    · simp [decorationsOf, same]
    · simp [decorationsOf, same, Ne.symm same]
  have all := funext entry
  change Except.ok ((), { st with decorations := _ }) = _
  rw [all]
  rfl

/-- An annotation attaches what it names, but for the word of a member. -/
theorem parseOther_attaches {a : Instruction} (annotated : a.IsAnnotation) (parse : Nat → M Nat)
    (st : SpvParser) : (parseOther parse a).run st = .ok ((), st.decorated a.attached) := by
  obtain ⟨op, operands⟩ := a
  cases op with
  | opName =>
      cases operands with
      | nil => exact nomatch annotated
      | cons target name => exact addDecoration_run _ _ st
  | opMemberName =>
      match operands, annotated with
      | target :: _ :: word :: rest, _ => exact addDecoration_run _ _ st
  | opDecorate =>
      match operands, annotated with
      | target :: number :: data, _ => exact addDecoration_run _ _ st
  | opExecutionMode =>
      match operands, annotated with
      | target :: mode :: data, _ => exact addDecoration_run _ _ st
  | opMemberDecorate =>
      match operands, annotated with
      | target :: _ :: number :: data, _ => exact addDecoration_run _ _ st
  | opEntryPoint =>
      match operands, annotated with
      | model :: target :: name, ⟨_, _, rfl, known⟩ =>
          cases found : entryPointType model with
          | none =>
              rw [found] at known
              exact nomatch known
          | some type =>
              have typed : (orFail (entryPointType model) .unsupportedOp).run st = .ok (type, st) := by
                rw [found]
                rfl
              have attached : Instruction.attached ⟨.opEntryPoint, model :: target :: name⟩ =
                  [(target.toNat, ⟨.shdEntryPointType, -1, .str type⟩)] ++
                    [(target.toNat, ⟨.shdEntryPointName, -1, .str (decodeSpvStringLiteral name)⟩)] := by
                simp only [Instruction.attached, Instruction.attaches, found, List.singleton_append]
              rw [attached, ← SpvParser.decorated_decorated, ← addDecoration_run]
              have read : ∀ {α : Type} (word : α) (next : α → M Unit),
                  (orFail (some word) .outOfBounds >>= next).run st = (next word).run st :=
                fun _ _ => rfl
              simp only [parseOther, parseOpEntryPoint]
              apply (read model _).trans
              apply (read target.toNat _).trans
              rw [run_bind_of_ok typed]
              exact run_bind_of_ok (addDecoration_run _ _ st)
  | _ => exact annotated.elim

theorem Instruction.IsAnnotation.noResult {a : Instruction} (annotated : a.IsAnnotation) :
    a.op.hasResultAndType.1 = false := by
  obtain ⟨op, operands⟩ := a
  cases op <;> first | rfl | exact annotated.elim

theorem instructionAt_run {code : List Instruction} {offset : Nat} {i : Instruction}
    (here : code[offset]? = some i) (st : SpvParser) :
    (instructionAt code offset).run st = .ok (i, st) := by
  simp only [instructionAt, here]
  rfl

theorem parseInstruction_attaches {code : List Instruction} (parse : Nat → M Nat) {offset : Nat}
    {a : Instruction} (here : code[offset]? = some a) (annotated : a.IsAnnotation) (st : SpvParser) :
    (parseInstruction code parse offset).run st = .ok (1, st.decorated a.attached) := by
  simp only [parseInstruction]
  rw [run_bind_of_ok (instructionAt_run here st)]
  simp only [annotated.noResult, Bool.false_eq_true, if_false]
  rw [run_bind_of_ok (parseOther_attaches annotated parse st)]
  rfl

/-- The loop of the front-end passes over the annotations. -/
theorem parseFrom_annotations {code : List Instruction} (depth : Nat) {annotations : List Instruction} :
    ∀ {before rest : List Instruction} (bound : Nat) (st : SpvParser),
      code = before ++ (annotations ++ rest) → (∀ a ∈ annotations, a.IsAnnotation) →
      (parseFrom code (depth + 1) (annotations.length + bound) before.length).run st =
        (parseFrom code (depth + 1) bound (before.length + annotations.length)).run
          (st.decorated (annotations.flatMap Instruction.attached)) := by
  induction annotations with
  | nil =>
      intro before rest bound st _ _
      simp only [List.length_nil, Nat.zero_add, Nat.add_zero, List.flatMap_nil,
        SpvParser.decorated_nil]
  | cons a others ih =>
      intro before rest bound st whole annotated
      have here : code[before.length]? = some a := by
        rw [whole, List.getElem?_append_right (Nat.le_refl _), Nat.sub_self]
        rfl
      have inside : before.length < code.length := (List.getElem?_eq_some_iff.mp here).1
      have ran := parseInstruction_attaches (parseSpvInstructionAt code depth) here
        (annotated a List.mem_cons_self) st
      have shifted : code = (before ++ [a]) ++ (others ++ rest) := by
        rw [whole]
        simp
      have next := ih bound (st.decorated a.attached) shifted
        fun b mem => annotated b (List.mem_cons_of_mem _ mem)
      rw [SpvParser.decorated_decorated, List.length_append, List.length_singleton] at next
      rw [List.flatMap_cons, List.length_cons,
        show others.length + 1 + bound = (others.length + bound) + 1 by omega,
        show before.length + (others.length + 1) = before.length + 1 + others.length by omega, ← next]
      simp only [parseFrom, inside, if_true]
      exact run_bind_of_ok ran

/-! ## Definitions -/

/-- The only item with an image is the one that is found. -/
theorem findIdx?_of_unique {α β : Type} [DecidableEq β] {image : α → Option β} {l : List α}
    (unique : (l.filterMap image).Nodup) {k : Nat} {x : α} {b : β} (here : l[k]? = some x)
    (has : image x = some b) : l.findIdx? (fun y => image y = some b) = some k := by
  obtain ⟨inside, rfl⟩ := List.getElem?_eq_some_iff.mp here
  rw [List.findIdx?_eq_some_iff_getElem]
  refine ⟨inside, by simpa using has, ?_⟩
  intro j before
  have apart := List.pairwise_filterMap.mp unique
  have different := (List.pairwise_iff_getElem.mp apart) j k (by omega) inside before
  intro same
  exact different b (by simpa using same) b has rfl

namespace SpvFunction.Valid

variable {f : SpvFunction} (valid : f.Valid)

include valid

theorem scanned {k : Nat} {i : Instruction} {id : SpvId} (here : f.code[k]? = some i)
    (has : i.result? = some id) : scanDefinitions f.prior f.code id = .forward k := by
  have found := findIdx?_of_unique valid.unique here has
  simp only [scanDefinitions, found]

theorem scanned_prior {id : SpvId} (known : f.prior id ≠ .nothing) :
    scanDefinitions f.prior f.code id = f.prior id := by
  have absent : f.code.findIdx? (fun i => i.result? = some id) = none := by
    rw [List.findIdx?_eq_none_iff]
    intro i mem
    have other : i.result? ≠ some id := fun has =>
      known (valid.fresh id (List.mem_filterMap.mpr ⟨i, mem, has⟩))
    simpa using other
  simp only [scanDefinitions, absent]

end SpvFunction.Valid

theorem getDefinitionById_run {parse : Nat → M Nat} {id : SpvId} {found : SpvDef} {st : SpvParser}
    (here : st.defs id = found) (known : found ≠ .nothing) (isRead : ∀ offset, found ≠ .forward offset) :
    (getDefinitionById parse id).run st = .ok (found, st) := by
  simp only [getDefinitionById]
  rw [run_bind_of_ok (run_get _), here]
  cases found with
  | nothing => exact absurd rfl known
  | forward offset => exact absurd rfl (isRead offset)
  | _ => rfl

theorem getDefType_run {parse : Nat → M Nat} {id : SpvId} {type : SpvType} {st : SpvParser}
    (here : st.defs id = .typ type) : (getDefType parse id).run st = .ok (type, st) := by
  simp only [getDefType]
  rw [run_bind_of_ok (getDefinitionById_run here (by intro same; exact nomatch same)
    (by intro _ same; exact nomatch same))]
  rfl

theorem getDefSsaValue_run {parse : Nat → M Nat} {id node : SpvId} {st : SpvParser}
    (here : st.defs id = .value (some node)) : (getDefSsaValue parse id).run st = .ok (node, st) := by
  simp only [getDefSsaValue]
  rw [run_bind_of_ok (getDefinitionById_run here (by intro same; exact nomatch same)
    (by intro _ same; exact nomatch same))]
  rfl

theorem getResultDefinedAt_run {code : List Instruction} {offset : Nat} {i : Instruction} {id : SpvId}
    (here : code[offset]? = some i) (has : i.result? = some id) (st : SpvParser) :
    (getResultDefinedAt code offset).run st = .ok (id, st) := by
  simp only [getResultDefinedAt]
  rw [run_bind_of_ok (instructionAt_run here st), has]
  rfl

theorem Instruction.hasResult {i : Instruction} {id : SpvId} (has : i.result? = some id) :
    i.op.hasResultAndType.1 = true := by
  cases op : i.op.hasResultAndType with
  | mk result type =>
      cases result with
      | true => rfl
      | false => simp [Instruction.result?, op] at has

theorem orFail_run {α : Type} (a : α) (e : SpvError) (st : SpvParser) :
    (orFail (some a) e).run st = .ok (a, st) := rfl

/-- A definition that is not read yet is read where it stands. -/
theorem parseInstruction_forward {code : List Instruction} {parse : Nat → M Nat} {offset k : Nat}
    {i : Instruction} {id : SpvId} {st : SpvParser} (here : code[offset]? = some i)
    (has : i.result? = some id) (forward : st.defs id = .forward k) (unread : st.finalSize id = 0) :
    (parseInstruction code parse offset).run st = (parseForward code parse offset i id).run st := by
  simp only [parseInstruction]
  rw [run_bind_of_ok (instructionAt_run here st)]
  simp only [Instruction.hasResult has, if_true, has]
  rw [run_bind_of_ok (orFail_run id _ st), run_bind_of_ok (run_get _)]
  simp only [forward, unread, Nat.lt_irrefl, if_false]

theorem parseForward_typed {code : List Instruction} {parse : Nat → M Nat} {offset : Nat}
    {i : Instruction} {id resultType : SpvId} {type : SpvType} {st : SpvParser}
    (hasType : i.op.hasResultAndType.2 = true) (typeId : i.id? 1 = some resultType)
    (typed : st.defs resultType = .typ type) :
    (parseForward code parse offset i id).run st =
      (do
        let size ← parseResult code parse offset i id
        setFinalSize id size
        return size : M Nat).run st := by
  simp only [parseForward, hasType, if_true, typeId]
  rw [run_bind_of_ok (orFail_run resultType _ st), run_bind_of_ok (getDefType_run typed)]

/-! ## Parameters -/

/-- The state behind the parameters. -/
def SpvParser.withParams (st : SpvParser) (ids : List SpvId) : SpvParser :=
  { st with
    defs := fun id => if id ∈ ids then .value (some id) else st.defs id
    finalSize := fun id => if id ∈ ids then 1 else st.finalSize id }

theorem SpvParser.withParams_nil (st : SpvParser) : st.withParams [] = st := by
  simp [SpvParser.withParams]

theorem SpvParser.withParams_cons (st : SpvParser) (id : SpvId) (ids : List SpvId) :
    (st.withParams [id]).withParams ids = st.withParams (id :: ids) := by
  have merged : ∀ {α : Type} (other : SpvId) (new old : α), (if other ∈ ids then new else
      if other ∈ [id] then new else old) = if other ∈ id :: ids then new else old := by
    intro α other new old
    by_cases listed : other ∈ ids
    · simp [listed]
    · simp [listed]
  simp only [SpvParser.withParams, merged]

/-- A parameter that can be read in a state. -/
def Instruction.IsParam (p : Instruction) (st : SpvParser) : Prop :=
  ∃ resultType result type k, p = ⟨.opFunctionParameter, [resultType, result]⟩ ∧
    st.defs resultType.toNat = .typ type ∧ st.defs result.toNat = .forward k ∧
    st.finalSize result.toNat = 0

theorem parseInstruction_param {code : List Instruction} (parse : Nat → M Nat) {offset : Nat}
    {p : Instruction} {id : SpvId} {st : SpvParser} (here : code[offset]? = some p)
    (isParam : p.IsParam st) (has : p.result? = some id) :
    (parseInstruction code parse offset).run st = .ok (1, st.withParams [id]) := by
  obtain ⟨resultType, result, type, k, rfl, typed, forward, unread⟩ := isParam
  cases has
  rw [parseInstruction_forward here rfl forward unread, parseForward_typed rfl rfl typed]
  have valued : (fun other => if other = result.toNat then .value (some result.toNat) else st.defs other)
      = (st.withParams [result.toNat]).defs := by
    funext id
    by_cases same : id = result.toNat
    · simp [SpvParser.withParams, same]
    · simp [SpvParser.withParams, same]
  have sized : (fun other => if other = result.toNat then 1 else st.finalSize other) =
      (st.withParams [result.toNat]).finalSize := by
    funext id
    simp only [SpvParser.withParams, List.mem_singleton]
  change Except.ok (1, { st with
    defs := fun other => if other = result.toNat then .value (some result.toNat) else st.defs other
    finalSize := fun other => if other = result.toNat then 1 else st.finalSize other }) = _
  rw [valued, sized]
  rfl

/-- Reading one parameter leaves the others to be read. -/
theorem Instruction.IsParam.withParams {p : Instruction} {st : SpvParser} {id k : Nat}
    (isParam : p.IsParam st) (forward : st.defs id = .forward k) (other : p.result? ≠ some id) :
    p.IsParam (st.withParams [id]) := by
  obtain ⟨resultType, result, type, j, rfl, typed, unreadDef, unread⟩ := isParam
  have typeApart : resultType.toNat ∉ [id] := by
    intro mem
    rw [List.mem_singleton.mp mem, forward] at typed
    exact nomatch typed
  have apart : result.toNat ∉ [id] := fun mem =>
    other (congrArg Option.some (List.mem_singleton.mp mem))
  refine ⟨resultType, result, type, j, rfl, ?_, ?_, ?_⟩
  · simp only [SpvParser.withParams, if_neg typeApart, typed]
  · simp only [SpvParser.withParams, if_neg apart, unreadDef]
  · simp only [SpvParser.withParams, if_neg apart, unread]

/-- All parameters are read, up to what follows. -/
theorem parseParameters_run {code : List Instruction} (parse : Nat → M Nat) {next : Instruction}
    (ends : next.op ≠ .opFunctionParameter) {params : List Instruction} :
    ∀ {before rest : List Instruction} (bound : Nat) (st : SpvParser),
      code = before ++ (params ++ next :: rest) → params.length < bound →
      (∀ p ∈ params, p.IsParam st) → (params.filterMap Instruction.result?).Nodup →
      (parseParameters code (parseInstruction code parse) bound before.length).run st =
        .ok (before.length + params.length,
          st.withParams (params.filterMap Instruction.result?)) := by
  induction params with
  | nil =>
      intro before rest bound st whole enough _ _
      cases bound with
      | zero => exact absurd enough (Nat.lt_irrefl 0)
      | succ bound =>
          have here : code[before.length]? = some next := by
            rw [whole, List.getElem?_append_right (Nat.le_refl _), Nat.sub_self]
            rfl
          simp only [parseParameters]
          rw [run_bind_of_ok (instructionAt_run here st)]
          simp only [ends, if_false, List.filterMap_nil, SpvParser.withParams_nil]
          rfl
  | cons p others ih =>
      intro before rest bound st whole enough areParams distinct
      cases bound with
      | zero => exact absurd enough (Nat.not_lt_zero _)
      | succ bound =>
          have here : code[before.length]? = some p := by
            rw [whole, List.getElem?_append_right (Nat.le_refl _), Nat.sub_self]
            rfl
          have isParam := areParams p List.mem_cons_self
          obtain ⟨resultType, result, type, k, shape, -, forward, -⟩ := isParam
          have has : p.result? = some result.toNat := by rw [shape]; rfl
          have isOp : p.op = .opFunctionParameter := by rw [shape]
          rw [List.filterMap_cons_some has] at distinct ⊢
          obtain ⟨fresh, apart⟩ := List.nodup_cons.mp distinct
          have ran := parseInstruction_param parse here (areParams p List.mem_cons_self) has
          have valued : (st.withParams [result.toNat]).defs result.toNat =
              .value (some result.toNat) := by
            simp [SpvParser.withParams]
          have shifted : code = (before ++ [p]) ++ (others ++ next :: rest) := by
            rw [whole]
            simp
          have left : ∀ q ∈ others, q.IsParam (st.withParams [result.toNat]) := by
            intro q mem
            apply (areParams q (List.mem_cons_of_mem _ mem)).withParams forward
            intro same
            exact fresh (List.mem_filterMap.mpr ⟨q, mem, same⟩)
          have rest := ih bound (st.withParams [result.toNat]) shifted
            (by simpa using enough) left apart
          rw [SpvParser.withParams_cons, List.length_append, List.length_singleton] at rest
          simp only [parseParameters]
          rw [run_bind_of_ok (instructionAt_run here st)]
          simp only [isOp, if_true]
          have ensured (st' : SpvParser) : (ensure (decide (0 < 1)) "s > 0").run st' = .ok ((), st') :=
            rfl
          rw [run_bind_of_ok ran, run_bind_of_ok (ensured _),
            run_bind_of_ok (getResultDefinedAt_run here has _),
            run_bind_of_ok (getDefSsaValue_run valued), rest, List.length_cons]
          congr 2
          omega

/-! ## Functions -/

theorem checkEntryPoint_cases (decorations : List SpvDeco) :
    (∃ isEntryPt, ∀ st, (checkEntryPoint decorations).run st = .ok (isEntryPt, st)) ∨
      ∀ st, ∃ e, (checkEntryPoint decorations).run st = .error e := by
  unfold checkEntryPoint
  split
  · exact .inl ⟨false, fun _ => rfl⟩
  · split
    · split
      · next data _ =>
          by_cases three : data.length == 3
          · exact .inl ⟨true, fun _ => by simp only [three]; rfl⟩
          · exact .inr fun _ => ⟨_, by simp only [three]; rfl⟩
      · exact .inr fun _ => ⟨_, rfl⟩
    · exact .inl ⟨true, fun _ => rfl⟩

theorem checkEntryPoint_none {decorations : List SpvDeco}
    (none : ∀ deco ∈ decorations, deco.decoration ≠ .shdEntryPointType) (st : SpvParser) :
    (checkEntryPoint decorations).run st = .ok (false, st) := by
  have notFound : findDecoration decorations (-1) .shdEntryPointType = Option.none := by
    rw [findDecoration, List.find?_eq_none]
    intro deco mem
    simp [none deco mem]
  simp only [checkEntryPoint, notFound]
  rfl

/-- The state behind the header. -/
def SpvParser.declared (st : SpvParser) (result : SpvId) (isEntryPt : Bool) : SpvParser :=
  { st with
    defs := fun other => if other = result then .decl false else st.defs other
    isEntryPt := isEntryPt }

/-- The parser in front of a function. -/
structure AtHeader (f : SpvFunction) (st : SpvParser) : Prop where
  defs : st.defs = scanDefinitions f.prior f.code
  finalSize : st.finalSize = fun _ => 0

/-- What stands behind the parameters. -/
def SpvFunction.tail (f : SpvFunction) : List Instruction :=
  f.blocks.flatMap SpvBlock.code ++ [⟨.opFunctionEnd, []⟩]

def SpvFunction.paramIds (f : SpvFunction) : List SpvId := f.params.filterMap Instruction.result?

theorem SpvFunction.code_eq (f : SpvFunction) :
    f.code = f.annotations ++ f.header :: (f.params ++ f.tail) := rfl

namespace SpvFunction.Valid

variable {f : SpvFunction} (valid : f.Valid)

include valid

/-- The ids that are defined: no annotation has a result. -/
theorem ids {result : SpvId} (has : f.header.result? = some result) :
    (result :: (f.paramIds ++ f.tail.filterMap Instruction.result?)).Nodup := by
  have bare : f.annotations.filterMap Instruction.result? = [] := by
    rw [List.filterMap_eq_nil_iff]
    intro a mem
    cases attached : a.result? with
    | none => rfl
    | some id =>
        have other := Instruction.hasResult attached
        rw [(valid.annotations a mem).noResult] at other
        exact nomatch other
  have unique := valid.unique
  rw [f.code_eq, List.filterMap_append, bare, List.nil_append, List.filterMap_cons_some has,
    List.filterMap_append] at unique
  exact unique

theorem areParams {st : SpvParser} (front : AtHeader f st) {result : SpvId}
    (has : f.header.result? = some result) (isEntryPt : Bool) :
    ∀ p ∈ f.params, p.IsParam (st.declared result isEntryPt) := by
  intro p mem
  obtain ⟨resultType, id, type, shape, typed⟩ := valid.params p mem
  obtain ⟨j, here⟩ := List.getElem?_of_mem mem
  have hasId : p.result? = some id.toNat := by rw [shape]; rfl
  have inCode : f.code[f.annotations.length + (j + 1)]? = some p := by
    rw [f.code_eq, List.getElem?_append_right (Nat.le_add_right _ _), Nat.add_sub_cancel_left,
      List.getElem?_cons_succ, List.getElem?_append_left (List.getElem?_eq_some_iff.mp here).1, here]
  have forward := valid.scanned inCode hasId
  have apart : id.toNat ≠ result := by
    intro same
    apply (List.nodup_cons.mp (valid.ids has)).1
    rw [← same]
    exact List.mem_append_left _ (List.mem_filterMap.mpr ⟨p, mem, hasId⟩)
  have headerIn : f.header ∈ f.code := by simp [f.code_eq]
  have typeApart : resultType.toNat ≠ result := by
    intro same
    have fresh := valid.fresh result (List.mem_filterMap.mpr ⟨f.header, headerIn, has⟩)
    rw [← same, typed] at fresh
    exact nomatch fresh
  refine ⟨resultType, id, type, f.annotations.length + (j + 1), shape, ?_, ?_, ?_⟩
  · simp only [SpvParser.declared, if_neg typeApart, front.defs]
    rw [valid.scanned_prior (by rw [typed]; intro same; exact nomatch same), typed]
  · simp only [SpvParser.declared, if_neg apart, front.defs]
    exact forward
  · simp only [SpvParser.declared, front.finalSize]

/-- The type of a function is known, and the annotations are checked next. -/
theorem parseOpFunction_checks {parse : Nat → M Nat} {st : SpvParser} (front : AtHeader f st)
    {result : SpvId} (has : f.header.result? = some result) (offset : Nat) :
    (parseOpFunction f.code parse offset f.header result).run st =
      (do
        let isEntryPt ← checkEntryPoint (st.decorations result)
        modify fun st => { st with isEntryPt := isEntryPt }
        let afterParams ← parseParameters f.code parse f.code.length (offset + 1)
        parseFunctionBody f.code parse offset result afterParams : M Nat).run
          (st.declared result st.isEntryPt) := by
  obtain ⟨resultType, id, control, fnType, returns, shape, -, typed⟩ := valid.header
  have headerIn : f.header ∈ f.code := by simp [f.code_eq]
  have typeApart : fnType.toNat ≠ result := by
    intro same
    have fresh := valid.fresh result (List.mem_filterMap.mpr ⟨f.header, headerIn, has⟩)
    rw [← same, typed] at fresh
    exact nomatch fresh
  have set : (setDef result (.decl false)).run st = .ok ((), st.declared result st.isEntryPt) := rfl
  have typeRead : (st.declared result st.isEntryPt).defs fnType.toNat = .typ .fnType := by
    simp only [SpvParser.declared, if_neg typeApart, front.defs]
    rw [valid.scanned_prior (by rw [typed]; intro same; exact nomatch same), typed]
  have typeId : f.header.id? 4 = some fnType.toNat := by rw [shape]; rfl
  have isFnType (st' : SpvParser) :
      (ensure (SpvType.fnType = .fnType) "t && t->tag == FnType_TAG").run st' = .ok ((), st') := rfl
  simp only [parseOpFunction, typeId]
  rw [run_bind_of_ok set, run_bind_of_ok (orFail_run fnType.toNat _ _),
    run_bind_of_ok (getDefType_run typeRead), run_bind_of_ok (isFnType _)]
  apply (run_bind_of_ok (run_get _)).trans
  rfl

/-- A function is read up to its body. -/
theorem parseOpFunction_run (parse : Nat → M Nat) {st : SpvParser} (front : AtHeader f st)
    {next : Instruction} {rest : List Instruction} (tail : f.tail = next :: rest)
    (ends : next.op ≠ .opFunctionParameter) {result : SpvId} (has : f.header.result? = some result)
    {isEntryPt : Bool}
    (checked : ∀ st', (checkEntryPoint (st.decorations result)).run st' = .ok (isEntryPt, st')) :
    (parseOpFunction f.code (parseInstruction f.code parse) f.annotations.length f.header result).run
        st =
      (parseFunctionBody f.code (parseInstruction f.code parse) f.annotations.length result
        (f.annotations.length + 1 + f.params.length)).run
          ((st.declared result isEntryPt).withParams f.paramIds) := by
  have whole : f.code = (f.annotations ++ [f.header]) ++ (f.params ++ next :: rest) := by
    rw [f.code_eq, tail]
    simp
  have enough : f.params.length < f.code.length := by
    rw [whole]
    simp
    omega
  have distinct : f.paramIds.Nodup :=
    (List.nodup_append.mp (List.nodup_cons.mp (valid.ids has)).2).1
  have params := parseParameters_run parse ends f.code.length
    (st.declared result isEntryPt) whole enough (valid.areParams front has isEntryPt) distinct
  rw [List.length_append, List.length_singleton] at params
  rw [valid.parseOpFunction_checks front has, run_bind_of_ok (checked _)]
  apply (run_bind_of_ok (run_modify _ _)).trans
  exact run_bind_of_ok params

end SpvFunction.Valid

/-! ### Without blocks -/

theorem parseInstruction_functionEnd {code : List Instruction} {parse : Nat → M Nat} {offset : Nat}
    (here : code[offset]? = some ⟨.opFunctionEnd, []⟩) (st : SpvParser) :
    (parseInstruction code parse offset).run st = .ok (1, st) := by
  simp only [parseInstruction]
  rw [run_bind_of_ok (instructionAt_run here st)]
  rfl

theorem parseFunctionBody_declaration {code : List Instruction} {parse : Nat → M Nat}
    {afterParams : Nat} (here : code[afterParams]? = some ⟨.opFunctionEnd, []⟩) (offset : Nat)
    (result : SpvId) (st : SpvParser) :
    (parseFunctionBody code (parseInstruction code parse) offset result afterParams).run st =
      .ok (afterParams + 1 - offset, st) := by
  have noBlocks (st' : SpvParser) : (parseBlocks code (parseInstruction code parse) code.length none
      afterParams).run st' = .ok ((none, afterParams), st') := by
    have inside := (List.getElem?_eq_some_iff.mp here).1
    obtain ⟨bound, length⟩ : ∃ bound, code.length = bound + 1 := ⟨code.length - 1, by omega⟩
    rw [length]
    simp only [parseBlocks]
    rw [run_bind_of_ok (instructionAt_run here st')]
    rfl
  simp only [parseFunctionBody]
  rw [run_bind_of_ok (run_get _), run_bind_of_ok (run_modify _ _),
    run_bind_of_ok (noBlocks _), run_bind_of_ok (parseInstruction_functionEnd here _)]
  rfl

/-! ### With a block -/

/-- A label that is read leaves the body of its block. -/
theorem parseOpLabel_body {code : List Instruction} {parse : Nat → M Nat} {offset size : Nat}
    {result : SpvId} {st st' : SpvParser}
    (run : (parseOpLabel code parse offset result).run st = .ok (size, st')) :
    (st'.blockBodies result).isSome := by
  simp only [parseOpLabel] at run
  obtain ⟨old, st₁, oldRun, run⟩ := run_bind_eq_ok.mp run
  obtain ⟨⟨⟩, st₂, enterRun, run⟩ := run_bind_eq_ok.mp run
  obtain ⟨phis, st₃, phisRun, run⟩ := run_bind_eq_ok.mp run
  obtain ⟨⟨⟩, st₄, definedRun, run⟩ := run_bind_eq_ok.mp run
  obtain ⟨⟨⟩, st₅, beginRun, run⟩ := run_bind_eq_ok.mp run
  obtain ⟨after, st₆, bodyRun, run⟩ := run_bind_eq_ok.mp run
  obtain ⟨now, st₇, nowRun, run⟩ := run_bind_eq_ok.mp run
  obtain ⟨body, st₈, endedRun, run⟩ := run_bind_eq_ok.mp run
  obtain ⟨⟨⟩, st₉, setRun, run⟩ := run_bind_eq_ok.mp run
  obtain ⟨⟨⟩, last, lastRun, run⟩ := run_bind_eq_ok.mp run
  obtain ⟨-, rfl⟩ := run_pure_eq_ok.mp run
  rw [run_modify_eq_ok.mp lastRun]
  simp only [setBlockBody] at setRun
  by_cases rooted : body.mem.abs = .basicBlock result
  · rw [dif_pos rooted] at setRun
    rw [run_modify_eq_ok.mp setRun]
    simp only [dite_true, Option.isSome_some]
  · rw [dif_neg rooted] at setRun
    exact nomatch setRun

/-- The first block stays the first one. -/
theorem parseBlocks_first {code : List Instruction} {parse : Nat → M Nat} (bound : Nat) :
    ∀ {block : SpvId} {offset after : Nat} {first : Option SpvId} {st st' : SpvParser},
      (parseBlocks code parse bound (some block) offset).run st = .ok ((first, after), st') →
      first = some block := by
  induction bound with
  | zero =>
      intro block offset after first st st' run
      obtain ⟨same, -⟩ := run_pure_eq_ok.mp run
      exact (congrArg Prod.fst same).symm
  | succ bound ih =>
      intro block offset after first st st' run
      simp only [parseBlocks] at run
      obtain ⟨i, st₁, iRun, run⟩ := run_bind_eq_ok.mp run
      by_cases ended : i.op = .opFunctionEnd
      · rw [if_pos ended] at run
        obtain ⟨same, -⟩ := run_pure_eq_ok.mp run
        exact (congrArg Prod.fst same).symm
      · rw [if_neg ended] at run
        obtain ⟨s, st₂, sRun, run⟩ := run_bind_eq_ok.mp run
        obtain ⟨⟨⟩, st₃, ensured, run⟩ := run_bind_eq_ok.mp run
        obtain ⟨label, st₄, labelRun, run⟩ := run_bind_eq_ok.mp run
        obtain ⟨params, st₅, blockRun, run⟩ := run_bind_eq_ok.mp run
        exact ih run

/-- Behind the blocks, the first one of them is known and has its body. -/
theorem parseBlocks_label {code : List Instruction} {parse : Nat → M Nat}
    (keeps : ∀ offset, Keeps (parse offset)) {bound offset after k label : Nat}
    {labelInstruction : Instruction} {first : Option SpvId} {st st' : SpvParser}
    (here : code[offset]? = some labelInstruction) (isLabel : labelInstruction.op = .opLabel)
    (has : labelInstruction.result? = some label)
    (run : (parseBlocks code (parseInstruction code parse) (bound + 1) none offset).run st =
      .ok ((first, after), st'))
    (forward : st.defs label = .forward k) (unread : st.finalSize label = 0) :
    first = some label ∧ (st'.blockBodies label).isSome := by
  have keepsAll : ∀ offset, Keeps (parseInstruction code parse offset) :=
    parseInstruction_keeps keeps
  simp only [parseBlocks] at run
  obtain ⟨i, st₁, iRun, run⟩ := run_bind_eq_ok.mp run
  rw [instructionAt_run here st] at iRun
  cases iRun
  rw [if_neg (by rw [isLabel]; intro same; exact nomatch same)] at run
  obtain ⟨s, st₂, labelRun, run⟩ := run_bind_eq_ok.mp run
  have body : (st₂.blockBodies label).isSome := by
    rw [parseInstruction_forward here has forward unread] at labelRun
    simp only [parseForward, isLabel, SpvOp.hasResultAndType, Bool.false_eq_true, if_false,
      parseResult] at labelRun
    obtain ⟨size, st₃, opRun, restRun⟩ := run_bind_eq_ok.mp labelRun
    obtain ⟨⟨⟩, st₄, sizeRun, ended⟩ := run_bind_eq_ok.mp restRun
    obtain ⟨-, rfl⟩ := run_pure_eq_ok.mp ended
    exact setFinalSize_keeps label size st₃ () st₄ sizeRun label (parseOpLabel_body opRun)
  obtain ⟨⟨⟩, st₃, ensured, run⟩ := run_bind_eq_ok.mp run
  have kept₃ := ensure_keeps _ _ st₂ () st₃ ensured label body
  obtain ⟨defined, st₄, definedRun, run⟩ := run_bind_eq_ok.mp run
  rw [getResultDefinedAt_run here has st₃] at definedRun
  cases definedRun
  obtain ⟨params, st₅, blockRun, run⟩ := run_bind_eq_ok.mp run
  have kept₅ := getDefBlock_keeps keepsAll label st₃ params st₅ blockRun label kept₃
  exact ⟨parseBlocks_first bound run, parseBlocks_keeps keepsAll bound _ _ st₅ _ st' run label kept₅⟩

/-- The body of a block is no body of the function. -/
theorem setFunBody_blockBody {result label : SpvId} (body : BodyOf (.basicBlock label))
    (st st' : SpvParser) : (setFunBody result (some body.1)).run st ≠ .ok ((), st') := by
  have notRooted : ¬ body.1.mem.abs = .fn result := by
    rw [body.2]
    intro same
    cases same
  simp only [setFunBody, dif_neg notRooted]
  intro run
  cases run

theorem parseFunctionBody_block {code : List Instruction} {parse : Nat → M Nat}
    (keeps : ∀ offset, Keeps (parse offset)) {offset afterParams k size : Nat} {label result : SpvId}
    {labelInstruction : Instruction} {st st' : SpvParser}
    (here : code[afterParams]? = some labelInstruction) (isLabel : labelInstruction.op = .opLabel)
    (has : labelInstruction.result? = some label)
    (forward : st.defs label = .forward k) (unread : st.finalSize label = 0) :
    (parseFunctionBody code (parseInstruction code parse) offset result afterParams).run st ≠
      .ok (size, st') := by
  intro run
  have inside := (List.getElem?_eq_some_iff.mp here).1
  obtain ⟨bound, length⟩ : ∃ bound, code.length = bound + 1 := ⟨code.length - 1, by omega⟩
  simp only [parseFunctionBody] at run
  obtain ⟨old, st₁, oldRun, run⟩ := run_bind_eq_ok.mp run
  obtain ⟨rfl, rfl⟩ := run_get_eq_ok.mp oldRun
  obtain ⟨⟨⟩, st₂, enterRun, run⟩ := run_bind_eq_ok.mp run
  obtain rfl := run_modify_eq_ok.mp enterRun
  obtain ⟨⟨first, after⟩, st₃, blocksRun, run⟩ := run_bind_eq_ok.mp run
  rw [length] at blocksRun
  obtain ⟨rfl, body⟩ := parseBlocks_label keeps here isLabel has blocksRun forward unread
  obtain ⟨s, st₄, endRun, run⟩ := run_bind_eq_ok.mp run
  have kept := parseInstruction_keeps keeps after st₃ s st₄ endRun label body
  obtain ⟨now, st₅, nowRun, run⟩ := run_bind_eq_ok.mp run
  obtain ⟨rfl, rfl⟩ := run_get_eq_ok.mp nowRun
  obtain ⟨⟨⟩, st₆, setRun, -⟩ := run_bind_eq_ok.mp run
  cases found : st₄.blockBodies label with
  | none =>
      rw [found] at kept
      exact nomatch kept
  | some blockBody =>
      rw [found] at setRun
      exact setFunBody_blockBody blockBody st₄ st₆ setRun

/-! ## What the annotations say -/

/-- The entries of each id, and the order of the ids, are the whole list. -/
theorem eq_of_decorationsOf {first : List (SpvId × SpvDeco)} :
    ∀ {second : List (SpvId × SpvDeco)}, first.map Prod.fst = second.map Prod.fst →
      (∀ id, decorationsOf first id = decorationsOf second id) → first = second := by
  induction first with
  | nil =>
      intro second ids _
      exact (List.map_eq_nil_iff.mp ids.symm).symm
  | cons entry rest ih =>
      intro second ids same
      cases second with
      | nil => exact nomatch ids
      | cons entry' rest' =>
          obtain ⟨id, deco⟩ := entry
          obtain ⟨id', deco'⟩ := entry'
          obtain ⟨rfl, restIds⟩ := List.cons.inj ids
          have here := same id
          simp only [decorationsOf, decide_true, List.filter_cons_of_pos, List.map_cons,
            List.cons.injEq] at here
          obtain ⟨rfl, -⟩ := here
          rw [ih restIds]
          intro other
          have both := same other
          by_cases named : id = other
          · simpa [decorationsOf, named] using both
          · simpa [decorationsOf, named] using both

theorem eq_of_flatMap {α β γ : Type} {f g : α → List (β × γ)} {l : List α}
    (names : ∀ a, (f a).map Prod.fst = (g a).map Prod.fst) (same : l.flatMap f = l.flatMap g) :
    ∀ a ∈ l, f a = g a := by
  induction l with
  | nil => exact fun _ mem => nomatch mem
  | cons a rest ih =>
      simp only [List.flatMap_cons] at same
      have lengths : (f a).length = (g a).length := by
        have counted := congrArg List.length (names a)
        simpa using counted
      obtain ⟨here, others⟩ := List.append_inj same lengths
      intro b mem
      cases mem with
      | head => exact here
      | tail _ inRest => exact ih others b inRest

theorem Instruction.attached_other {a : Instruction} (notName : a.op ≠ .opMemberName)
    (notDecorate : a.op ≠ .opMemberDecorate) : a.attached = a.attaches := by
  unfold Instruction.attached
  split
  · next isName _ => exact absurd isName notName
  · next isDecorate _ => exact absurd isDecorate notDecorate
  · rfl

/-- Only the contents differ, not what they are attached to. -/
theorem Instruction.attached_ids (a : Instruction) :
    a.attached.map Prod.fst = a.attaches.map Prod.fst := by
  unfold Instruction.attached
  split
  · next isName words =>
      unfold Instruction.attaches
      simp only [isName, words, List.map_cons, List.map_nil]
  · next isDecorate words =>
      unfold Instruction.attaches
      simp only [isDecorate, words, List.map_cons, List.map_nil]
  · rfl

theorem Instruction.attached_eq_iff {a : Instruction} (annotated : a.IsAnnotation) :
    a.attached = a.attaches ↔
      (a.op = .opMemberName ∨ a.op = .opMemberDecorate → a.word? 3 = a.word? 2) := by
  obtain ⟨op, operands⟩ := a
  cases op with
  | opMemberName =>
      match operands, annotated with
      | target :: member :: word :: rest, _ =>
          simp [Instruction.attached, Instruction.attaches, Instruction.word?, BitVec.toInt_inj]
  | opMemberDecorate =>
      match operands, annotated with
      | target :: member :: number :: data, _ =>
          simp [Instruction.attached, Instruction.attaches, Instruction.word?, BitVec.toInt_inj]
  | _ =>
      rw [Instruction.attached_other (by intro same; exact nomatch same)
        (by intro same; exact nomatch same)]
      simp

/-- Words behind a member are only seen to be wrong where they differ from it. -/
theorem membersRepeated_iff {f : SpvFunction} (annotated : ∀ a ∈ f.annotations, a.IsAnnotation) :
    f.MembersRepeated ↔ ∀ id, decorationsOf (f.annotations.flatMap Instruction.attached) id =
      decorationsOf (f.annotations.flatMap Instruction.attaches) id := by
  constructor
  · intro repeated id
    have each : ∀ a ∈ f.annotations, a.attached = a.attaches := fun a mem =>
      (Instruction.attached_eq_iff (annotated a mem)).mpr (repeated a mem)
    rw [List.flatMap_congr each]
  · intro same a mem
    have names : (f.annotations.flatMap Instruction.attached).map Prod.fst =
        (f.annotations.flatMap Instruction.attaches).map Prod.fst := by
      simp only [List.map_flatMap, Instruction.attached_ids]
    have lists := eq_of_flatMap Instruction.attached_ids (eq_of_decorationsOf names same)
    exact (Instruction.attached_eq_iff (annotated a mem)).mp (lists a mem)

/-! ## The result -/

/-- The state behind the annotations. -/
def SpvFunction.atHeader (f : SpvFunction) : SpvParser :=
  (SpvParser.initial f.prior f.code).decorated (f.annotations.flatMap Instruction.attached)

theorem SpvFunction.atHeader_front (f : SpvFunction) : AtHeader f f.atHeader where
  defs := rfl
  finalSize := rfl

/-- No entry point is found for a function that none names. -/
theorem Instruction.attached_entryPoint {a : Instruction} {entry : SpvId × SpvDeco}
    (mem : entry ∈ a.attached) (isType : entry.2.decoration = .shdEntryPointType) :
    a.op = .opEntryPoint ∧ a.id? 2 = some entry.1 := by
  have elsewhere {id : SpvId} {deco : SpvDeco} (only : entry ∈ [(id, deco)])
      (other : deco.decoration ≠ .shdEntryPointType) : False := by
    rw [List.mem_singleton.mp only] at isType
    exact other isType
  unfold Instruction.attached at mem
  split at mem
  · exact (elsewhere mem (by intro same; exact nomatch same)).elim
  · exact (elsewhere mem (by intro same; exact nomatch same)).elim
  · unfold Instruction.attaches at mem
    split at mem
    · exact (elsewhere mem (by intro same; exact nomatch same)).elim
    · exact (elsewhere mem (by intro same; exact nomatch same)).elim
    · exact (elsewhere mem (by intro same; exact nomatch same)).elim
    · exact (elsewhere mem (by intro same; exact nomatch same)).elim
    · exact (elsewhere mem (by intro same; exact nomatch same)).elim
    · next model target name isOp words =>
        cases known : entryPointType model with
        | none =>
            rw [known] at mem
            exact nomatch mem
        | some type =>
            rw [known] at mem
            cases mem with
            | head => exact ⟨isOp, by rw [Instruction.id?, Instruction.word?, words]; rfl⟩
            | tail _ named => exact (elsewhere named (by intro same; exact nomatch same)).elim
    · exact nomatch mem

namespace SpvFunction.Valid

variable {f : SpvFunction} (valid : f.Valid)

include valid

/-- The header is read as an `OpFunction`. -/
theorem parseHeader (parse : Nat → M Nat) {result : SpvId} (has : f.header.result? = some result) :
    (parseInstruction f.code parse f.annotations.length).run f.atHeader =
      (do
        let size ← parseOpFunction f.code parse f.annotations.length f.header result
        setFinalSize result size
        return size : M Nat).run f.atHeader := by
  obtain ⟨resultType, id, control, fnType, returns, shape, typed, -⟩ := valid.header
  have here : f.code[f.annotations.length]? = some f.header := by
    rw [f.code_eq, List.getElem?_append_right (Nat.le_refl _), Nat.sub_self]
    rfl
  have typeRead : f.atHeader.defs resultType.toNat = .typ returns := by
    change scanDefinitions f.prior f.code resultType.toNat = _
    rw [valid.scanned_prior (by rw [typed]; intro same; exact nomatch same), typed]
  have isFunction : f.header.op = .opFunction := by rw [shape]
  rw [parseInstruction_forward here has (valid.scanned here has) rfl,
    parseForward_typed (by rw [isFunction]; rfl) (by rw [shape]; rfl) typeRead]
  simp only [parseResult, isFunction]

/-- The front-end comes to the header with all annotations attached. -/
theorem run_header : ∃ bound,
    (parseFrom f.code (f.code.length + 2) f.code.length 0).run (.initial f.prior f.code) =
      (do
        let s ← parseInstruction f.code (parseInstruction f.code
          (parseSpvInstructionAt f.code f.code.length)) f.annotations.length
        parseFrom f.code (f.code.length + 2) bound (f.annotations.length + s) : M Unit).run
          f.atHeader := by
  have whole : f.code = [] ++ (f.annotations ++ f.header :: (f.params ++ f.tail)) := f.code_eq
  have counted : f.code.length = f.annotations.length + ((f.params ++ f.tail).length + 1) := by
    rw [f.code_eq, List.length_append, List.length_cons]
  have inside : f.annotations.length < f.code.length := by omega
  have passed := parseFrom_annotations (f.code.length + 1) ((f.params ++ f.tail).length + 1)
    (.initial f.prior f.code) whole valid.annotations
  rw [← counted] at passed
  simp only [List.length_nil, Nat.zero_add] at passed
  refine ⟨(f.params ++ f.tail).length, passed.trans ?_⟩
  simp only [parseFrom, inside, if_true]
  rfl

/-- A function without blocks is read, and its annotations with the word behind a member. -/
theorem reads_declaration (noBlocks : f.blocks = []) : ∃ st, shdParseSpirv f.prior f.code = .ok st ∧
    ∀ id, st.decorations id = decorationsOf (f.annotations.flatMap Instruction.attached) id := by
  obtain ⟨resultType, id, control, fnType, returns, shape, -⟩ := valid.header
  have has : f.header.result? = some id.toNat := by rw [shape]; rfl
  have tail : f.tail = [⟨.opFunctionEnd, []⟩] := by rw [SpvFunction.tail, noBlocks]; rfl
  have ends : f.code[f.annotations.length + 1 + f.params.length]? = some ⟨.opFunctionEnd, []⟩ := by
    have split : f.code = (f.annotations ++ f.header :: f.params) ++ [⟨.opFunctionEnd, []⟩] := by
      rw [f.code_eq, tail]
      simp
    have at' : f.annotations.length + 1 + f.params.length =
        (f.annotations ++ f.header :: f.params).length := by
      simp
      omega
    rw [split, at', List.getElem?_append_right (Nat.le_refl _), Nat.sub_self]
    rfl
  have initial : ∀ other, f.atHeader.decorations other =
      decorationsOf (f.annotations.flatMap Instruction.attached) other := fun _ => rfl
  have unnamed : ∀ deco ∈ f.atHeader.decorations id.toNat, deco.decoration ≠ .shdEntryPointType := by
    intro deco mem isType
    rw [initial] at mem
    obtain ⟨⟨target, deco'⟩, listed, rfl⟩ := List.mem_map.mp mem
    obtain ⟨listed, named⟩ := List.mem_filter.mp listed
    obtain ⟨a, inAnnotations, attached⟩ := List.mem_flatMap.mp listed
    obtain ⟨isOp, names⟩ := Instruction.attached_entryPoint attached isType
    apply valid.entryPoints noBlocks a inAnnotations isOp
    rw [names, has]
    simpa using named
  have read := valid.parseOpFunction_run (parseSpvInstructionAt f.code f.code.length)
    f.atHeader_front tail (by intro same; exact nomatch same) has (checkEntryPoint_none unnamed)
  rw [parseFunctionBody_declaration ends] at read
  obtain ⟨bound, whole⟩ := valid.run_header
  have header := valid.parseHeader (parseInstruction f.code
    (parseSpvInstructionAt f.code f.code.length)) has
  simp only [setFinalSize] at header
  rw [run_bind_of_ok read, run_bind_of_ok (run_modify _ _)] at header
  have atEnd : ¬ f.annotations.length + (f.annotations.length + 1 + f.params.length + 1 -
      f.annotations.length) < f.code.length := by
    rw [f.code_eq, tail]
    simp
    omega
  have after (st : SpvParser) : (parseFrom f.code (f.code.length + 2) bound
      (f.annotations.length + (f.annotations.length + 1 + f.params.length + 1 -
        f.annotations.length))).run st = .ok ((), st) := by
    cases bound with
    | zero => rfl
    | succ bound =>
        simp only [parseFrom, atEnd, if_false]
        rfl
  rw [run_bind_of_ok header, after] at whole
  have ran : shdParseSpirv f.prior f.code = .ok _ := Fallible.bind_eq_ok.mpr ⟨_, whole, rfl⟩
  exact ⟨_, ran, initial⟩

/-- Where the first label is, and that it is not read yet when the blocks are. -/
theorem first_label {result : SpvId} (has : f.header.result? = some result) {block : SpvBlock}
    {rest : List SpvBlock} (blocks : f.blocks = block :: rest) (isEntryPt : Bool) :
    ∃ label k next, f.tail = ⟨.opLabel, [label]⟩ :: next ∧
      f.code[f.annotations.length + 1 + f.params.length]? = some ⟨.opLabel, [label]⟩ ∧
      ((f.atHeader.declared result isEntryPt).withParams f.paramIds).defs label.toNat = .forward k ∧
      ((f.atHeader.declared result isEntryPt).withParams f.paramIds).finalSize label.toNat = 0 := by
  obtain ⟨next, tail⟩ : ∃ next, f.tail = ⟨.opLabel, [BitVec.ofNat 32 block.label]⟩ :: next := by
    rw [SpvFunction.tail, blocks]
    exact ⟨_, rfl⟩
  have here : f.code[f.annotations.length + 1 + f.params.length]? =
      some ⟨.opLabel, [BitVec.ofNat 32 block.label]⟩ := by
    have split : f.code = (f.annotations ++ f.header :: f.params) ++
        ⟨.opLabel, [BitVec.ofNat 32 block.label]⟩ :: next := by
      rw [f.code_eq, tail]
      simp
    have at' : f.annotations.length + 1 + f.params.length =
        (f.annotations ++ f.header :: f.params).length := by
      simp
      omega
    rw [split, at', List.getElem?_append_right (Nat.le_refl _), Nat.sub_self]
    rfl
  have hasLabel : Instruction.result? ⟨.opLabel, [BitVec.ofNat 32 block.label]⟩ =
      some (BitVec.ofNat 32 block.label).toNat := rfl
  have unique := valid.ids has
  rw [tail, List.filterMap_cons_some hasLabel] at unique
  obtain ⟨fresh, others⟩ := List.nodup_cons.mp unique
  have apart : (BitVec.ofNat 32 block.label).toNat ≠ result := by
    intro same
    apply fresh
    rw [← same]
    exact List.mem_append_right _ List.mem_cons_self
  have noParam : (BitVec.ofNat 32 block.label).toNat ∉ f.paramIds := by
    intro mem
    exact (List.nodup_append.mp others).2.2 _ mem _ List.mem_cons_self rfl
  refine ⟨BitVec.ofNat 32 block.label, f.annotations.length + 1 + f.params.length, next, tail, here,
    ?_, ?_⟩
  · simp only [SpvParser.withParams, if_neg noParam, SpvParser.declared, if_neg apart]
    exact valid.scanned here rfl
  · simp only [SpvParser.withParams, if_neg noParam]
    rfl

/-- The front-end stops at a function with a block. -/
theorem stops_at_block (hasBlock : f.blocks ≠ []) (st : SpvParser) :
    shdParseSpirv f.prior f.code ≠ .ok st := by
  obtain ⟨resultType, id, control, fnType, returns, shape, -⟩ := valid.header
  have has : f.header.result? = some id.toNat := by rw [shape]; rfl
  cases blocks : f.blocks with
  | nil => exact absurd blocks hasBlock
  | cons block rest =>
      intro run
      obtain ⟨bound, whole⟩ := valid.run_header
      unfold shdParseSpirv at run
      obtain ⟨⟨⟨⟩, last⟩, parsed, -⟩ := Fallible.bind_eq_ok.mp run
      rw [whole] at parsed
      obtain ⟨size, st₁, headerRun, -⟩ := run_bind_eq_ok.mp parsed
      rw [valid.parseHeader _ has] at headerRun
      obtain ⟨size', st₂, functionRun, -⟩ := run_bind_eq_ok.mp headerRun
      rcases checkEntryPoint_cases (f.atHeader.decorations id.toNat) with
        ⟨isEntryPt, checked⟩ | rejected
      · obtain ⟨label, k, next, tail, here, forward, unread⟩ :=
          valid.first_label has blocks isEntryPt
        rw [valid.parseOpFunction_run _ f.atHeader_front tail (by intro same; exact nomatch same) has
          checked] at functionRun
        exact parseFunctionBody_block (parseSpvInstructionAt_keeps f.code f.code.length) here rfl rfl
          forward unread functionRun
      · rw [valid.parseOpFunction_checks f.atHeader_front has] at functionRun
        obtain ⟨isEntryPt, st₃, checkRun, -⟩ := run_bind_eq_ok.mp functionRun
        obtain ⟨e, stops⟩ := rejected (f.atHeader.declared id.toNat f.atHeader.isEntryPt)
        rw [stops] at checkRun
        exact nomatch checkRun

end SpvFunction.Valid

/-- The front-end keeps a function exactly when the function is only declared, and each member that
it names is repeated behind the member. -/
theorem keepsFunction_exact (f : SpvFunction) (valid : f.Valid) :
    KeepsFunction f ↔ f.blocks = [] ∧ f.MembersRepeated := by
  rw [membersRepeated_iff valid.annotations]
  constructor
  · rintro ⟨st, run, -, decorations⟩
    have noBlocks : f.blocks = [] := by
      by_contra hasBlock
      exact valid.stops_at_block hasBlock st run
    refine ⟨noBlocks, fun id => ?_⟩
    obtain ⟨st', run', attached⟩ := valid.reads_declaration noBlocks
    rw [run] at run'
    cases run'
    rw [← attached, decorations]
  · rintro ⟨noBlocks, same⟩
    obtain ⟨st, run, attached⟩ := valid.reads_declaration noBlocks
    refine ⟨st, run, ?_, fun id => (attached id).trans (same id)⟩
    rw [noBlocks]
    exact fun block mem => nomatch mem

/-! ## A declaration and a function with a block -/

/-- Types `1` (void), `2` (of the function) and `3`, and a constant `4`. -/
def priorTypes : SpvId → SpvDef
  | 1 => .typ .unit
  | 2 => .typ .fnType
  | 3 => .typ .other
  | 4 => .value (some 4)
  | _ => .nothing

/-- The offset of member `35` is decorated, which is the number of that decoration. -/
def declaration : SpvFunction where
  prior := priorTypes
  annotations := [⟨.opMemberDecorate, [3, 35, 35, 140]⟩]
  header := ⟨.opFunction, [1, 10, 0, 2]⟩
  params := [⟨.opFunctionParameter, [3, 11]⟩]
  blocks := []

/-- The constant is stored through the parameter. -/
def storing : SpvFunction where
  prior := priorTypes
  annotations := []
  header := ⟨.opFunction, [1, 10, 0, 2]⟩
  params := [⟨.opFunctionParameter, [3, 11]⟩]
  blocks := [⟨12, [], [⟨.opStore, [11, 4]⟩], ⟨.opReturn, []⟩⟩]

theorem keepsFunction_declaration : KeepsFunction declaration := by
  have valid : declaration.Valid := {
    annotations := by
      intro a mem
      rw [List.mem_singleton.mp mem]
      change 3 ≤ [_, _, _, _].length
      decide
    header := ⟨1, 10, 0, 2, .unit, rfl, rfl, rfl⟩
    params := by
      intro p mem
      rw [List.mem_singleton.mp mem]
      exact ⟨3, 11, .other, rfl, rfl⟩
    labels := fun block mem => nomatch mem
    unique := by decide
    fresh := by decide
    entryPoints := by
      intro _ a mem isOp
      rw [List.mem_singleton.mp mem] at isOp
      exact nomatch isOp }
  apply (keepsFunction_exact declaration valid).mpr
  refine ⟨rfl, ?_⟩
  intro a mem _
  rw [List.mem_singleton.mp mem]
  rfl

theorem keepsFunction_storing : storing.Valid ∧
    shdParseSpirv storing.prior storing.code = .error (.cannotBeNull "mem" "Return") ∧
    ¬ KeepsFunction storing := by
  have stops : shdParseSpirv storing.prior storing.code = .error (.cannotBeNull "mem" "Return") := rfl
  refine ⟨?_, stops, ?_⟩
  · exact {
      annotations := fun a mem => nomatch mem
      header := ⟨1, 10, 0, 2, .unit, rfl, rfl, rfl⟩
      params := by
        intro p mem
        rw [List.mem_singleton.mp mem]
        exact ⟨3, 11, .other, rfl, rfl⟩
      labels := by
        intro block mem
        rw [List.mem_singleton.mp mem]
        change 12 < 2 ^ 32
        decide
      unique := by decide
      fresh := by decide
      entryPoints := fun none => nomatch none }
  · rintro ⟨st, run, -⟩
    rw [stops] at run
    exact nomatch run

end Shady.S2s
