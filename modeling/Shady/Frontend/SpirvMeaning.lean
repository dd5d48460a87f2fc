import Shady.Frontend.SpirvFunctions

/-!
# What a function in SPIR-V says

The effects of each block in program order, the arguments that the phi instructions list for each
edge, and what names and decorations are attached to; read off the instructions, without the parser.
-/

set_option autoImplicit false

namespace Shady.S2s

structure SpvBlock where
  label : SpvId
  phis : List Instruction
  instructions : List Instruction
  terminator : Instruction

/-- A function, with the annotations in front of it. -/
structure SpvFunction where
  /-- The types, constants, global variables and other functions. -/
  prior : SpvId → SpvDef
  annotations : List Instruction
  header : Instruction
  params : List Instruction
  blocks : List SpvBlock

def SpvBlock.code (block : SpvBlock) : List Instruction :=
  ⟨.opLabel, [BitVec.ofNat 32 block.label]⟩ :: (block.phis ++ block.instructions ++ [block.terminator])

def SpvFunction.code (f : SpvFunction) : List Instruction :=
  f.annotations ++ f.header ::
    (f.params ++ (f.blocks.flatMap SpvBlock.code ++ [⟨.opFunctionEnd, []⟩]))

/-! ## Annotations -/

/-- What an annotation attaches to which id. -/
def Instruction.attaches (a : Instruction) : List (SpvId × SpvDeco) :=
  match a.op, a.operands with
  | .opName, target :: name =>
      [(target.toNat, ⟨.shdName, -1, .str (decodeSpvStringLiteral name)⟩)]
  | .opMemberName, target :: member :: name =>
      [(target.toNat, ⟨.shdMemberName, member.toInt, .str (decodeSpvStringLiteral name)⟩)]
  | .opDecorate, target :: number :: data =>
      [(target.toNat, ⟨.decoration number, -1, .literals data⟩)]
  | .opExecutionMode, target :: mode :: data =>
      [(target.toNat, ⟨.decoration mode, -2, .literals data⟩)]
  | .opMemberDecorate, target :: member :: number :: data =>
      [(target.toNat, ⟨.decoration number, member.toInt, .literals data⟩)]
  | .opEntryPoint, model :: target :: name =>
      match entryPointType model with
      | some type => [(target.toNat, ⟨.shdEntryPointType, -1, .str type⟩),
          (target.toNat, ⟨.shdEntryPointName, -1, .str (decodeSpvStringLiteral name)⟩)]
      | none => []
  | _, _ => []

/-- The decorations of an id among those of all. -/
def decorationsOf (all : List (SpvId × SpvDeco)) (id : SpvId) : List SpvDeco :=
  (all.filter fun entry => entry.1 = id).map Prod.snd

/-- An annotation with all of its words. -/
def Instruction.IsAnnotation (a : Instruction) : Prop :=
  match a.op with
  | .opName => 1 ≤ a.operands.length
  | .opMemberName => 3 ≤ a.operands.length
  | .opDecorate | .opExecutionMode => 2 ≤ a.operands.length
  | .opMemberDecorate => 3 ≤ a.operands.length
  | .opEntryPoint => 2 ≤ a.operands.length ∧ ∃ model, a.word? 1 = some model ∧
      (entryPointType model).isSome
  | _ => False

/-! ## Blocks -/

/-- The effects of an instruction, on the nodes that stand for its operands. -/
def Instruction.effects (i : Instruction) (node? : SpvId → Option SpvId) : Option (List Effect) := do
  match i.op with
  | .opVariable =>
      let result ← i.result?
      if i.size = 5 then
        return [.stackAlloc result, .store result (← node? (← i.id? 4))]
      else return [.stackAlloc result]
  | .opLoad => return [.load (← i.result?) (← node? (← i.id? 3))]
  | .opStore => return [.store (← node? (← i.id? 1)) (← node? (← i.id? 2))]
  | .opCopyMemory => return [.copyBytes (← node? (← i.id? 1)) (← node? (← i.id? 2)) none]
  | .opCopyMemorySized =>
      return [.copyBytes (← node? (← i.id? 1)) (← node? (← i.id? 2)) (some (← node? (← i.id? 3)))]
  | .opFunctionCall =>
      return [.call (← i.result?) (← i.id? 3) (← (i.idsFrom 4).mapM node?)]
  | _ => return []

/-- The effects of a block in program order. -/
def SpvBlock.effects (block : SpvBlock) (node? : SpvId → Option SpvId) : Option (List Effect) := do
  return (← block.instructions.mapM fun i => i.effects node?).flatten

/-- The value that the pairs of a phi instruction list for a predecessor. -/
def listedIn (predecessor : SpvId) : List SpvId → Option SpvId
  | value :: block :: rest => if block = predecessor then some value else listedIn predecessor rest
  | _ => none

def Instruction.listed (phi : Instruction) (predecessor : SpvId) : Option SpvId :=
  listedIn predecessor (phi.idsFrom 3)

def SpvBlock.targets (block : SpvBlock) : List SpvId :=
  match block.terminator.op with
  | .opBranch => (block.terminator.id? 1).toList
  | .opBranchConditional => (block.terminator.id? 2).toList ++ (block.terminator.id? 3).toList
  | _ => []

/-- What a jump to the target passes for its phi instructions. -/
def SpvFunction.passes (f : SpvFunction) (node? : SpvId → Option SpvId) (predecessor target : SpvId) :
    Option (SpvId × List SpvId) := do
  let block ← f.blocks.find? fun block => block.label = target
  return (target, ← block.phis.mapM fun phi => do node? (← phi.listed predecessor))

/-! ## What the front-end made -/

def SpvParser.node? (st : SpvParser) (id : SpvId) : Option SpvId :=
  match st.defs id with
  | .value node => node
  | .decl _ => some id
  | _ => none

def Terminator.jumps : Terminator → List Jump
  | .jump j => [j]
  | .branch _ _ trueJump falseJump => [trueJump, falseJump]
  | .fnRet _ _ => []

/-- The function is read, and each block of it ends with its effects and passes what is listed; names
and decorations are attached to what the instructions name. -/
def KeepsFunction (f : SpvFunction) : Prop :=
  ∃ st, shdParseSpirv f.prior f.code = .ok st ∧
    (∀ block ∈ f.blocks, ∃ body, st.blockBodies block.label = some body ∧
      block.effects st.node? = some body.1.mem.effects ∧
      block.targets.mapM (f.passes st.node? block.label) =
        some (body.1.jumps.map fun jump => (jump.target, jump.args))) ∧
    ∀ id, st.decorations id = decorationsOf (f.annotations.flatMap Instruction.attaches) id

/-- What the theorem needs of a valid function. -/
structure SpvFunction.Valid (f : SpvFunction) : Prop where
  annotations : ∀ a ∈ f.annotations, a.IsAnnotation
  header : ∃ resultType result control fnType returns, f.header =
    ⟨.opFunction, [resultType, result, control, fnType]⟩ ∧
      f.prior resultType.toNat = .typ returns ∧ f.prior fnType.toNat = .typ .fnType
  params : ∀ p ∈ f.params, ∃ resultType result type, p =
    ⟨.opFunctionParameter, [resultType, result]⟩ ∧ f.prior resultType.toNat = .typ type
  labels : ∀ block ∈ f.blocks, block.label < 2 ^ 32
  /-- Every id is defined once. -/
  unique : (f.code.filterMap Instruction.result?).Nodup
  fresh : ∀ id ∈ f.code.filterMap Instruction.result?, f.prior id = .nothing
  /-- An entry point has a body. -/
  entryPoints : f.blocks = [] → ∀ a ∈ f.annotations, a.op = .opEntryPoint →
    a.id? 2 ≠ f.header.result?

/-- The word behind the member is the member again. -/
def SpvFunction.MembersRepeated (f : SpvFunction) : Prop :=
  ∀ a ∈ f.annotations, a.op = .opMemberName ∨ a.op = .opMemberDecorate → a.word? 3 = a.word? 2

end Shady.S2s
