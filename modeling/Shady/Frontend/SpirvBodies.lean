import Shady.Frontend.SpirvFunctions

/-!
# Bodies of blocks stay

A block that has its body keeps it, however deeply the parser goes on from there.
-/

set_option autoImplicit false

namespace Shady.S2s

open Stateful

/-- The blocks that had a body have one. -/
def BodiesStay (before after : SpvParser) : Prop :=
  ∀ id, (before.blockBodies id).isSome → (after.blockBodies id).isSome

abbrev Keeps {α : Type} (x : M α) : Prop := Moves BodiesStay x

theorem BodiesStay.refl (st : SpvParser) : BodiesStay st st := fun _ has => has

theorem BodiesStay.trans {a b c : SpvParser} (first : BodiesStay a b) (second : BodiesStay b c) :
    BodiesStay a c :=
  fun id has => second id (first id has)

theorem keeps_pure {α : Type} (a : α) : Keeps (pure a : M α) := Moves.pure BodiesStay.refl a

theorem keeps_get : Keeps (get : M SpvParser) := Moves.get BodiesStay.refl

theorem keeps_fail {α : Type} (e : SpvError) : Keeps (fail e : M α) := Moves.throw e

theorem keeps_bind {α β : Type} {x : M α} {f : α → M β} (first : Keeps x) (rest : ∀ a, Keeps (f a)) :
    Keeps (x >>= f) := by
  apply Moves.bind _ first rest
  intro a b c
  exact BodiesStay.trans

/-- An update of anything else. -/
theorem keeps_modify {f : SpvParser → SpvParser} (same : ∀ st, (f st).blockBodies = st.blockBodies) :
    Keeps (modify f : M PUnit) := by
  apply Moves.modify
  intro st id has
  rw [same st]
  exact has

theorem keeps_update {β : Type} {f : SpvParser → SpvParser} {rest : PUnit → M β}
    (same : ∀ st, (f st).blockBodies = st.blockBodies) (others : Keeps (rest ())) :
    Keeps (modify f >>= rest) :=
  keeps_bind (keeps_modify same) fun _ => others

theorem keeps_ite {α : Type} {condition : Prop} [Decidable condition] {x y : M α} (yes : Keeps x)
    (no : Keeps y) : Keeps (if condition then x else y) := by
  split
  · exact yes
  · exact no

theorem orFail_keeps {α : Type} (a : Option α) (e : SpvError) : Keeps (orFail a e) := by
  cases a with
  | none => exact keeps_fail e
  | some a => exact keeps_pure a

theorem ensure_keeps (condition : Bool) (text : String) : Keeps (ensure condition text) :=
  keeps_ite (keeps_pure ()) (keeps_fail _)

theorem setDef_keeps (id : SpvId) (value : SpvDef) : Keeps (setDef id value) :=
  keeps_modify fun _ => rfl

theorem setFinalSize_keeps (id : SpvId) (size : Nat) : Keeps (setFinalSize id size) :=
  keeps_modify fun _ => rfl

/-! ## Nodes and annotations -/

theorem createNode_keeps (node : String) (mem : Option Mem) : Keeps (createNode node mem) :=
  orFail_keeps mem _

theorem bbMem_keeps : Keeps bbMem := keeps_bind keeps_get fun _ => orFail_keeps _ _

theorem addInstruction_keeps (node : String) (mem : Option Mem) (effect : Effect) :
    Keeps (addInstruction node mem effect) := by
  apply keeps_bind (createNode_keeps node mem)
  intro created
  apply keeps_bind bbMem_keeps
  intro _
  exact keeps_modify fun _ => rfl

theorem addPrimOp_keeps : Keeps addPrimOp := keeps_bind bbMem_keeps fun _ => keeps_fail _

theorem finish_keeps (terminator : Terminator) : Keeps (finish terminator) :=
  keeps_modify fun _ => rfl

/-- The only update of a block's body gives it one. -/
theorem setBlockBody_keeps (id : SpvId) (body : Terminator) : Keeps (setBlockBody id body) := by
  unfold setBlockBody
  split
  · apply Moves.modify
    intro st other has
    by_cases same : other = id
    · simp only [same, dite_true, Option.isSome_some]
    · simp only [same, dite_false]
      exact has
  · exact keeps_fail _

theorem setFunBody_keeps (id : SpvId) (body : Option Terminator) : Keeps (setFunBody id body) := by
  cases body with
  | none => exact keeps_modify fun _ => rfl
  | some body =>
      simp only [setFunBody]
      by_cases rooted : body.mem.abs = .fn id
      · rw [dif_pos rooted]
        exact keeps_modify fun _ => rfl
      · rw [dif_neg rooted]
        exact keeps_fail _

theorem addDecoration_keeps (id : SpvId) (decoration : SpvDeco) :
    Keeps (addDecoration id decoration) :=
  keeps_modify fun _ => rfl

theorem parseOpName_keeps (instruction : Instruction) : Keeps (parseOpName instruction) :=
  keeps_bind (orFail_keeps _ _) fun _ => addDecoration_keeps _ _

theorem parseOpMemberName_keeps (instruction : Instruction) : Keeps (parseOpMemberName instruction) := by
  apply keeps_bind (orFail_keeps _ _)
  intro target
  exact keeps_bind (orFail_keeps _ _) fun _ => addDecoration_keeps _ _

theorem parseOpDecorate_keeps (member : Int) (instruction : Instruction) :
    Keeps (parseOpDecorate member instruction) := by
  apply keeps_bind (orFail_keeps _ _)
  intro target
  exact keeps_bind (orFail_keeps _ _) fun _ => addDecoration_keeps _ _

theorem parseOpMemberDecorate_keeps (instruction : Instruction) :
    Keeps (parseOpMemberDecorate instruction) := by
  apply keeps_bind (orFail_keeps _ _)
  intro target
  exact keeps_bind (orFail_keeps _ _) fun _ => addDecoration_keeps _ _

theorem parseOpEntryPoint_keeps (instruction : Instruction) :
    Keeps (parseOpEntryPoint instruction) := by
  apply keeps_bind (orFail_keeps _ _)
  intro model
  apply keeps_bind (orFail_keeps _ _)
  intro target
  apply keeps_bind (orFail_keeps _ _)
  intro type
  exact keeps_bind (addDecoration_keeps _ _) fun _ => addDecoration_keeps _ _

/-! ## Values -/

section Parser

variable {code : List Instruction} {parse : Nat → M Nat}

theorem instructionAt_keeps (offset : Nat) : Keeps (instructionAt code offset) := orFail_keeps _ _

theorem getResultDefinedAt_keeps (offset : Nat) : Keeps (getResultDefinedAt code offset) :=
  keeps_bind (instructionAt_keeps offset) fun _ => orFail_keeps _ _

variable (parseKeeps : ∀ offset, Keeps (parse offset))

include parseKeeps

theorem getDefinitionById_keeps (id : SpvId) : Keeps (getDefinitionById parse id) := by
  apply keeps_bind keeps_get
  intro st
  split
  · exact keeps_fail _
  · apply keeps_bind (parseKeeps _)
    intro _
    apply keeps_bind keeps_get
    intro st'
    cases st'.defs id with
    | forward _ => exact keeps_fail _
    | _ => exact keeps_pure _
  · exact keeps_pure _

theorem getDefType_keeps (id : SpvId) : Keeps (getDefType parse id) := by
  apply keeps_bind (getDefinitionById_keeps parseKeeps id)
  intro found
  split
  · exact keeps_pure _
  · exact keeps_fail _

theorem getDefDecl_keeps (id : SpvId) : Keeps (getDefDecl parse id) := by
  apply keeps_bind (getDefinitionById_keeps parseKeeps id)
  intro found
  split
  · exact keeps_pure _
  · exact keeps_fail _

theorem getDefSsaValue_keeps (id : SpvId) : Keeps (getDefSsaValue parse id) := by
  apply keeps_bind (getDefinitionById_keeps parseKeeps id)
  intro found
  split
  · exact keeps_pure _
  · exact keeps_pure _
  · exact keeps_fail _

theorem getDefSsaValues_keeps (ids : List SpvId) : Keeps (getDefSsaValues parse ids) := by
  induction ids with
  | nil => exact keeps_pure _
  | cons id rest ih =>
      apply keeps_bind (getDefSsaValue_keeps parseKeeps id)
      intro node
      exact keeps_bind ih fun _ => keeps_pure _

theorem getDefBlock_keeps (id : SpvId) : Keeps (getDefBlock parse id) := by
  apply keeps_bind (getDefinitionById_keeps parseKeeps id)
  intro found
  split
  · exact keeps_pure _
  · exact keeps_fail _

theorem phiParams_keeps (arguments : List SpvPhiArgs) (predecessor : SpvId) (params : List SpvId) :
    ∀ i, Keeps (phiParams parse arguments predecessor i params) := by
  induction params with
  | nil => exact fun _ => keeps_pure _
  | cons param rest ih =>
      intro i
      apply keeps_bind (orFail_keeps _ _)
      intro arg
      apply keeps_bind (getDefSsaValue_keeps parseKeeps arg)
      intro node
      exact keeps_bind (ih (i + 1)) fun _ => keeps_pure _

theorem getArgsFromPhi_keeps (block predecessor : SpvId) :
    Keeps (getArgsFromPhi parse block predecessor) := by
  apply keeps_bind (getDefBlock_keeps parseKeeps block)
  intro params
  exact keeps_bind keeps_get fun _ => phiParams_keeps parseKeeps _ _ _ _

/-! ## Instructions of a block -/

theorem parsePrimOp_keeps (values : List SpvId) : Keeps (parsePrimOp parse values) :=
  keeps_bind (getDefSsaValues_keeps parseKeeps values) fun _ => addPrimOp_keeps

theorem parseOpVariable_keeps (instruction : Instruction) (result : SpvId) :
    Keeps (parseOpVariable parse instruction result) := by
  apply keeps_bind bbMem_keeps
  intro mem
  apply keeps_bind (addInstruction_keeps _ _ _)
  intro _
  apply keeps_bind (setDef_keeps _ _)
  intro _
  apply keeps_ite
  · apply keeps_bind (orFail_keeps _ _)
    intro init
    apply keeps_bind (getDefSsaValue_keeps parseKeeps init)
    intro value
    exact keeps_bind bbMem_keeps fun _ => addInstruction_keeps _ _ _
  · exact keeps_pure _

/-- A value that an instruction takes. -/
theorem operand_keeps (word : Option SpvId) {β : Type} {rest : SpvId → M β}
    (others : ∀ node, Keeps (rest node)) :
    Keeps (orFail word .outOfBounds >>= fun id => getDefSsaValue parse id >>= rest) := by
  apply keeps_bind (orFail_keeps _ _)
  intro id
  exact keeps_bind (getDefSsaValue_keeps parseKeeps id) others

theorem parseOpLoad_keeps (instruction : Instruction) (result : SpvId) :
    Keeps (parseOpLoad parse instruction result) := by
  apply operand_keeps parseKeeps
  intro src
  apply keeps_bind bbMem_keeps
  intro mem
  exact keeps_bind (addInstruction_keeps _ _ _) fun _ => setDef_keeps _ _

theorem parseOpStore_keeps (instruction : Instruction) : Keeps (parseOpStore parse instruction) := by
  apply operand_keeps parseKeeps
  intro ptr
  apply operand_keeps parseKeeps
  intro value
  exact keeps_bind bbMem_keeps fun _ => addInstruction_keeps _ _ _

theorem parseOpCopyMemory_keeps (sized : Bool) (instruction : Instruction) :
    Keeps (parseOpCopyMemory parse sized instruction) := by
  apply operand_keeps parseKeeps
  intro dst
  apply operand_keeps parseKeeps
  intro src
  apply keeps_ite
  · exact operand_keeps parseKeeps _ fun _ => addInstruction_keeps _ _ _
  · exact addPrimOp_keeps

theorem parseOpFunctionCall_keeps (instruction : Instruction) (result : SpvId) :
    Keeps (parseOpFunctionCall parse instruction result) := by
  apply keeps_bind (setDef_keeps _ _)
  intro _
  apply keeps_bind (orFail_keeps _ _)
  intro callee
  apply keeps_bind (getDefDecl_keeps parseKeeps callee)
  intro isIntrinsic
  apply keeps_bind (getDefSsaValues_keeps parseKeeps _)
  intro args
  apply keeps_bind (orFail_keeps _ _)
  intro resultType
  apply keeps_bind (getDefType_keeps parseKeeps resultType)
  intro type
  apply keeps_ite
  · exact addPrimOp_keeps
  · apply keeps_bind (addInstruction_keeps _ _ _)
    intro _
    exact keeps_ite (setDef_keeps _ _) (keeps_pure _)

omit parseKeeps in
theorem recordPhiArgs_keeps (argI : Nat) (block : SpvId) :
    ∀ pairs, Keeps (recordPhiArgs argI block pairs)
  | [] => keeps_pure _
  | [_] => keeps_pure _
  | _ :: _ :: rest =>
      keeps_bind (keeps_modify fun _ => rfl) fun _ => recordPhiArgs_keeps argI block rest

omit parseKeeps in
theorem parseOpPhi_keeps (instruction : Instruction) (result : SpvId) :
    Keeps (parseOpPhi instruction result) := by
  apply keeps_bind (setDef_keeps _ _)
  intro _
  apply keeps_bind (ensure_keeps _ _)
  intro _
  apply keeps_bind keeps_get
  intro st
  exact keeps_bind (recordPhiArgs_keeps _ _ _) fun _ => keeps_modify fun _ => rfl

/-! ## Terminators -/

theorem jumpTo_keeps (target : SpvId) : Keeps (jumpTo parse target) := by
  apply keeps_bind (getDefBlock_keeps parseKeeps target)
  intro _
  exact keeps_bind keeps_get fun _ => getArgsFromPhi_keeps parseKeeps _ _

theorem parseOpBranch_keeps (instruction : Instruction) : Keeps (parseOpBranch parse instruction) := by
  apply keeps_bind (orFail_keeps _ _)
  intro target
  apply keeps_bind (jumpTo_keeps parseKeeps target)
  intro args
  exact keeps_bind bbMem_keeps fun _ => finish_keeps _

theorem parseOpBranchConditional_keeps (instruction : Instruction) :
    Keeps (parseOpBranchConditional parse instruction) := by
  apply keeps_bind (orFail_keeps _ _)
  intro first
  apply keeps_bind (orFail_keeps _ _)
  intro second
  apply keeps_bind (jumpTo_keeps parseKeeps first)
  intro trueArgs
  apply keeps_bind bbMem_keeps
  intro trueMem
  apply keeps_bind (jumpTo_keeps parseKeeps second)
  intro falseArgs
  apply keeps_bind bbMem_keeps
  intro falseMem
  apply operand_keeps parseKeeps
  intro condition
  exact keeps_bind (createNode_keeps _ _) fun _ => finish_keeps _

theorem parseOpReturn_keeps (values : List SpvId) : Keeps (parseOpReturn parse values) := by
  apply keeps_bind (getDefSsaValues_keeps parseKeeps values)
  intro args
  exact keeps_bind (createNode_keeps _ _) fun _ => finish_keeps _

/-! ## Blocks and functions -/

theorem parsePhis_keeps (bound : Nat) : ∀ offset, Keeps (parsePhis code parse bound offset) := by
  induction bound with
  | zero => exact fun _ => keeps_pure _
  | succ bound ih =>
      intro offset
      apply keeps_bind (instructionAt_keeps offset)
      intro instruction
      apply keeps_ite
      · apply keeps_bind (parseKeeps offset)
        intro s
        apply keeps_bind (ensure_keeps _ _)
        intro _
        apply keeps_bind (getResultDefinedAt_keeps offset)
        intro param
        apply keeps_bind (getDefinitionById_keeps parseKeeps param)
        intro _
        exact keeps_bind (ih _) fun _ => keeps_pure _
      · exact keeps_pure _

theorem parseBlockBody_keeps (bound : Nat) : ∀ offset, Keeps (parseBlockBody parse bound offset) := by
  induction bound with
  | zero => exact fun _ => keeps_pure _
  | succ bound ih =>
      intro offset
      apply keeps_bind keeps_get
      intro st
      split
      · exact keeps_pure _
      · apply keeps_bind (parseKeeps offset)
        intro s
        exact keeps_bind (ensure_keeps _ _) fun _ => ih _

theorem parseOpLabel_keeps (offset : Nat) (result : SpvId) :
    Keeps (parseOpLabel code parse offset result) := by
  apply keeps_bind keeps_get
  intro old
  apply keeps_update fun _ => by rfl
  apply keeps_bind (parsePhis_keeps parseKeeps _ _)
  intro phis
  apply keeps_bind (setDef_keeps _ _)
  intro _
  apply keeps_update fun _ => by rfl
  apply keeps_bind (parseBlockBody_keeps parseKeeps _ _)
  intro after
  apply keeps_bind keeps_get
  intro st
  apply keeps_bind (orFail_keeps _ _)
  intro body
  apply keeps_bind (setBlockBody_keeps _ _)
  intro _
  exact keeps_bind (keeps_modify fun _ => rfl) fun _ => keeps_pure _

theorem parseParameters_keeps (bound : Nat) :
    ∀ offset, Keeps (parseParameters code parse bound offset) := by
  induction bound with
  | zero => exact fun _ => keeps_pure _
  | succ bound ih =>
      intro offset
      apply keeps_bind (instructionAt_keeps offset)
      intro instruction
      apply keeps_ite
      · apply keeps_bind (parseKeeps offset)
        intro s
        apply keeps_bind (ensure_keeps _ _)
        intro _
        apply keeps_bind (getResultDefinedAt_keeps offset)
        intro param
        exact keeps_bind (getDefSsaValue_keeps parseKeeps param) fun _ => ih _
      · exact keeps_pure _

theorem parseBlocks_keeps (bound : Nat) :
    ∀ first offset, Keeps (parseBlocks code parse bound first offset) := by
  induction bound with
  | zero => exact fun _ _ => keeps_pure _
  | succ bound ih =>
      intro first offset
      apply keeps_bind (instructionAt_keeps offset)
      intro instruction
      apply keeps_ite
      · exact keeps_pure _
      · apply keeps_bind (parseKeeps offset)
        intro s
        apply keeps_bind (ensure_keeps _ _)
        intro _
        apply keeps_bind (getResultDefinedAt_keeps offset)
        intro label
        exact keeps_bind (getDefBlock_keeps parseKeeps label) fun _ => ih _ _

omit parseKeeps in
theorem checkEntryPoint_keeps (decorations : List SpvDeco) : Keeps (checkEntryPoint decorations) := by
  unfold checkEntryPoint
  split
  · exact keeps_pure _
  · apply keeps_ite
    · split
      · exact keeps_bind (ensure_keeps _ _) fun _ => keeps_pure _
      · exact keeps_fail _
    · exact keeps_pure _

theorem parseFunctionBody_keeps (offset : Nat) (result : SpvId) (afterParams : Nat) :
    Keeps (parseFunctionBody code parse offset result afterParams) := by
  apply keeps_bind keeps_get
  intro old
  apply keeps_update fun _ => by rfl
  apply keeps_bind (parseBlocks_keeps parseKeeps _ _ _)
  intro blocks
  apply keeps_bind (parseKeeps _)
  intro s
  have restored : Keeps (do
      modify fun st : SpvParser => { st with function := old.function }
      return blocks.2 + s - offset) :=
    keeps_bind (keeps_modify fun _ => rfl) fun _ => keeps_pure _
  split
  · apply keeps_bind keeps_get
    intro _
    exact keeps_bind (setFunBody_keeps _ _) fun _ => restored
  · exact restored

theorem parseOpFunction_keeps (offset : Nat) (instruction : Instruction) (result : SpvId) :
    Keeps (parseOpFunction code parse offset instruction result) := by
  apply keeps_bind (setDef_keeps _ _)
  intro _
  apply keeps_bind (orFail_keeps _ _)
  intro fnType
  apply keeps_bind (getDefType_keeps parseKeeps fnType)
  intro type
  apply keeps_bind (ensure_keeps _ _)
  intro _
  apply keeps_bind keeps_get
  intro st
  apply keeps_bind (checkEntryPoint_keeps _)
  intro isEntryPt
  apply keeps_update fun _ => by rfl
  apply keeps_bind (parseParameters_keeps parseKeeps _ _)
  intro afterParams
  exact parseFunctionBody_keeps parseKeeps _ _ _

/-! ## All instructions -/

omit parseKeeps in
/-- The instructions of one word count. -/
theorem one_keeps {x : M Unit} (keeps : Keeps x) : Keeps (x >>= fun _ => pure 1) :=
  keeps_bind keeps fun _ => keeps_pure _

theorem parseResult_keeps (offset : Nat) (instruction : Instruction) (result : SpvId) :
    Keeps (parseResult code parse offset instruction result) := by
  unfold parseResult
  split
  · exact parseOpFunction_keeps parseKeeps _ _ _
  · exact parseOpLabel_keeps parseKeeps _ _
  · exact one_keeps (setDef_keeps _ _)
  · exact one_keeps (parseOpPhi_keeps _ _)
  · exact one_keeps (parseOpVariable_keeps parseKeeps _ _)
  · exact one_keeps (parsePrimOp_keeps parseKeeps _)
  · exact keeps_bind (orFail_keeps _ _) fun _ => one_keeps (parsePrimOp_keeps parseKeeps _)
  · exact keeps_bind (orFail_keeps _ _) fun _ => one_keeps (parsePrimOp_keeps parseKeeps _)
  · apply keeps_bind (orFail_keeps _ _)
    intro composite
    exact keeps_bind (orFail_keeps _ _) fun _ => one_keeps (parsePrimOp_keeps parseKeeps _)
  · exact operand_keeps parseKeeps _ fun _ => one_keeps (setDef_keeps _ _)
  · exact keeps_bind (getDefSsaValues_keeps parseKeeps _) fun _ => one_keeps (setDef_keeps _ _)
  · exact keeps_bind (getDefSsaValues_keeps parseKeeps _) fun _ => one_keeps (setDef_keeps _ _)
  · exact keeps_bind (getDefSsaValues_keeps parseKeeps _) fun _ => one_keeps (setDef_keeps _ _)
  · exact one_keeps (parseOpLoad_keeps parseKeeps _ _)
  · exact one_keeps (parseOpFunctionCall_keeps parseKeeps _ _)
  · exact keeps_fail _

theorem parseOther_keeps (instruction : Instruction) : Keeps (parseOther parse instruction) := by
  unfold parseOther
  split
  · exact parseOpName_keeps _
  · exact parseOpMemberName_keeps _
  · exact parseOpEntryPoint_keeps _
  · exact parseOpDecorate_keeps _ _
  · exact parseOpDecorate_keeps _ _
  · exact parseOpMemberDecorate_keeps _
  · exact keeps_pure _
  · exact keeps_pure _
  · exact keeps_pure _
  · exact keeps_pure _
  · exact parseOpStore_keeps parseKeeps _
  · exact parseOpCopyMemory_keeps parseKeeps _ _
  · exact parseOpCopyMemory_keeps parseKeeps _ _
  · exact parseOpBranch_keeps parseKeeps _
  · exact parseOpBranchConditional_keeps parseKeeps _
  · exact parseOpReturn_keeps parseKeeps _
  · exact keeps_bind (orFail_keeps _ _) fun _ => parseOpReturn_keeps parseKeeps _
  · exact keeps_fail _

theorem parseForward_keeps (offset : Nat) (instruction : Instruction) (result : SpvId) :
    Keeps (parseForward code parse offset instruction result) := by
  have read : Keeps (do
      let size ← parseResult code parse offset instruction result
      setFinalSize result size
      return size) := by
    apply keeps_bind (parseResult_keeps parseKeeps _ _ _)
    intro size
    exact keeps_bind (setFinalSize_keeps _ _) fun _ => keeps_pure _
  apply keeps_ite
  · apply keeps_bind (orFail_keeps _ _)
    intro resultType
    exact keeps_bind (getDefType_keeps parseKeeps _) fun _ => read
  · exact read

theorem parseInstruction_keeps (offset : Nat) : Keeps (parseInstruction code parse offset) := by
  apply keeps_bind (instructionAt_keeps offset)
  intro instruction
  apply keeps_ite
  · apply keeps_bind (orFail_keeps _ _)
    intro result
    apply keeps_bind keeps_get
    intro st
    split
    · exact keeps_fail _
    · exact keeps_ite (keeps_pure _) (parseForward_keeps parseKeeps _ _ _)
    · exact keeps_ite (keeps_pure _) (keeps_pure _)
  · exact one_keeps (parseOther_keeps parseKeeps _)

end Parser

theorem parseSpvInstructionAt_keeps (code : List Instruction) (depth : Nat) :
    ∀ offset, Keeps (parseSpvInstructionAt code depth offset) := by
  induction depth with
  | zero => exact fun _ => keeps_fail _
  | succ depth ih => exact parseInstruction_keeps ih

end Shady.S2s
