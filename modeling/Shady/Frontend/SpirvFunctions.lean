import Shady.Library.Stateful
import Shady.Library.WordStream

/-!
# Functions read from SPIR-V

Model of the part of `src/frontend/spirv/s2s.c` that reads annotations and functions. A module is
the list of its instructions, so that an offset counts instructions and not words; types, constants,
global variables and other functions are read before. A node is named by the id that it is made for.
-/

set_option autoImplicit false

namespace Shady.S2s

open Stateful

abbrev Word := BitVec 32

abbrev SpvId := Nat

/-! ## Instructions -/

inductive SpvOp
  | opName | opMemberName | opEntryPoint | opExecutionMode | opDecorate | opMemberDecorate
  | opFunction | opFunctionParameter | opFunctionEnd | opLabel | opPhi | opVariable
  /-- The instructions of `spv_shd_op_mapping`. -/
  | opMapped
  /-- The conversions, `OpBitcast` among them. -/
  | opConvert
  | opCompositeExtract | opCompositeInsert
  | opCopyObject | opCompositeConstruct | opPtrAccessChain | opAccessChain
  | opLoad | opStore | opCopyMemory | opCopyMemorySized | opFunctionCall
  | opSelectionMerge | opLifetimeStart | opLifetimeStop
  | opBranch | opBranchConditional | opReturn | opReturnValue
  | other
  deriving DecidableEq

structure Instruction where
  op : SpvOp
  /-- The words behind the first one. -/
  operands : List Word
  deriving DecidableEq

/-- `SpvHasResultAndType`: whether there is a result, and a type of it. -/
def SpvOp.hasResultAndType : SpvOp → Bool × Bool
  | .opFunction | .opFunctionParameter | .opPhi | .opVariable | .opMapped | .opConvert
  | .opCompositeExtract | .opCompositeInsert | .opCopyObject | .opCompositeConstruct
  | .opPtrAccessChain | .opAccessChain | .opLoad | .opFunctionCall => (true, true)
  | .opLabel => (true, false)
  | _ => (false, false)

/-- The number of words. -/
def Instruction.size (instruction : Instruction) : Nat := instruction.operands.length + 1

/-- `instruction[k]`, for a word behind the first one. -/
def Instruction.word? (instruction : Instruction) (k : Nat) : Option Word :=
  instruction.operands[k - 1]?

/-- The words from `k` on. -/
def Instruction.wordsFrom (instruction : Instruction) (k : Nat) : List Word :=
  instruction.operands.drop (k - 1)

def Instruction.id? (instruction : Instruction) (k : Nat) : Option SpvId :=
  (instruction.word? k).map BitVec.toNat

def Instruction.result? (instruction : Instruction) : Option SpvId :=
  match instruction.op.hasResultAndType with
  | (true, true) => instruction.id? 2
  | (true, false) => instruction.id? 1
  | (false, _) => none

/-! ## The state of the parser -/

inductive SpvDecoration
  | shdName | shdMemberName | shdEntryPointType | shdEntryPointName
  | decoration (number : Word)
  deriving DecidableEq

inductive Payload
  | str (bytes : List WordStream.Byte)
  | literals (data : List Word)
  deriving DecidableEq

structure SpvDeco where
  decoration : SpvDecoration
  member : Int
  payload : Payload
  deriving DecidableEq

inductive SpvType
  | unit
  | fnType
  | other
  deriving DecidableEq

inductive SpvDef
  | nothing
  | forward (offset : Nat)
  | typ (type : SpvType)
  /-- A global variable or a function, and whether its name starts with `__shady`. -/
  | decl (isIntrinsic : Bool)
  | block (params : List SpvId)
  /-- A call without a result leaves no node. -/
  | value (node : Option SpvId)
  deriving DecidableEq

structure SpvPhiArgs where
  predecessor : SpvId
  argI : Nat
  arg : SpvId
  deriving DecidableEq

inductive Abstraction
  | fn (id : SpvId)
  | basicBlock (id : SpvId)
  deriving DecidableEq

/-- What a node with a `mem` does. -/
inductive Effect
  | stackAlloc (id : SpvId)
  | load (id ptr : SpvId)
  | store (ptr value : SpvId)
  | copyBytes (dst src : SpvId) (count : Option SpvId)
  | call (id callee : SpvId) (args : List SpvId)
  deriving DecidableEq

/-- A chain of `mem` operands, from the `AbsMem` on. -/
structure Mem where
  abs : Abstraction
  effects : List Effect
  deriving DecidableEq

structure Jump where
  mem : Mem
  target : SpvId
  args : List SpvId
  deriving DecidableEq

inductive Terminator
  | jump (jump : Jump)
  | branch (mem : Mem) (condition : SpvId) (trueJump falseJump : Jump)
  | fnRet (mem : Mem) (args : List SpvId)
  deriving DecidableEq

/-- `get_terminator_mem` -/
def Terminator.mem : Terminator → Mem
  | .jump j => j.mem
  | .branch mem _ _ _ => mem
  | .fnRet mem _ => mem

/-- A body that `shd_set_abstraction_body` accepts. -/
abbrev BodyOf (abs : Abstraction) := { terminator : Terminator // terminator.mem.abs = abs }

structure CurrBlock where
  id : SpvId
  builder : Option Mem
  finished : Option Terminator

structure SpvParser where
  defs : SpvId → SpvDef
  finalSize : SpvId → Nat
  decorations : SpvId → List SpvDeco
  phiArguments : SpvId → List SpvPhiArgs
  isEntryPt : Bool
  funArgI : Nat
  function : Option SpvId
  currentBlock : CurrBlock
  blockBodies : (id : SpvId) → Option (BodyOf (.basicBlock id))
  funBodies : (id : SpvId) → Option (BodyOf (.fn id))

inductive SpvError
  | noOpDefines (id : SpvId)
  | cannotBeNull (operand node : String)
  | unsupportedOp
  | noResultDefined
  | assertion (text : String)
  /-- Words that the instruction does not have are read. -/
  | outOfBounds
  | depth

abbrev M := Prog SpvParser SpvError

def fail {α : Type} (e : SpvError) : M α := throw e

def ensure (condition : Bool) (text : String) : M Unit :=
  if condition then pure () else fail (.assertion text)

def orFail {α : Type} (a : Option α) (e : SpvError) : M α :=
  match a with
  | some a => pure a
  | none => fail e

def setDef (id : SpvId) (value : SpvDef) : M Unit :=
  modify fun st => { st with defs := fun other => if other = id then value else st.defs other }

def setFinalSize (id : SpvId) (size : Nat) : M Unit :=
  modify fun st =>
    { st with finalSize := fun other => if other = id then size else st.finalSize other }

/-! ## Nodes -/

/-- The constructors of nodes reject an operand that is not given. -/
def createNode (node : String) (mem : Option Mem) : M Mem :=
  orFail mem (.cannotBeNull "mem" node)

/-- `shd_bb_mem` of the builder of the current block -/
def bbMem : M Mem := do
  orFail (← get).currentBlock.builder (.assertion "parser->current_block.builder")

/-- `bind_internal`, of a node of the class `mem`. -/
def addInstruction (node : String) (mem : Option Mem) (effect : Effect) : M Unit := do
  let mem ← createNode node mem
  let _ ← bbMem
  modify fun st => { st with currentBlock :=
    { st.currentBlock with builder := some { mem with effects := mem.effects ++ [effect] } } }

/-- `bind_internal`, of a `PrimOp`: types are checked, and it has no `mem`. -/
def addPrimOp : M Unit := do
  let _ ← bbMem
  fail (.assertion "is_mem(instruction)")

/-- `shd_bld_finish` -/
def finish (terminator : Terminator) : M Unit :=
  modify fun st => { st with currentBlock :=
    { st.currentBlock with finished := some terminator, builder := none } }

/-- `shd_set_abstraction_body` -/
def setBlockBody (id : SpvId) (body : Terminator) : M Unit :=
  if rooted : body.mem.abs = .basicBlock id then
    modify fun st => { st with blockBodies := fun other =>
      if same : other = id then some ⟨body, same ▸ rooted⟩ else st.blockBodies other }
  else fail (.assertion "mem_abs == abs")

/-- `shd_set_abstraction_body`, which accepts a body that is not given. -/
def setFunBody (id : SpvId) (body : Option Terminator) : M Unit :=
  match body with
  | none => modify fun st => { st with funBodies := fun other =>
      if other = id then none else st.funBodies other }
  | some body =>
      if rooted : body.mem.abs = .fn id then
        modify fun st => { st with funBodies := fun other =>
          if same : other = id then some ⟨body, same ▸ rooted⟩ else st.funBodies other }
      else fail (.assertion "mem_abs == abs")

/-! ## Annotations -/

/-- `decode_spv_string_literal` -/
def decodeSpvStringLiteral (at' : List Word) : List WordStream.Byte :=
  (at'.flatMap WordStream.bytes).takeWhile (· ≠ 0)

/-- `add_decoration` -/
def addDecoration (id : SpvId) (decoration : SpvDeco) : M Unit :=
  modify fun st => { st with decorations := fun other =>
    if other = id then st.decorations other ++ [decoration] else st.decorations other }

/-- `find_decoration` -/
def findDecoration (decorations : List SpvDeco) (member : Int) (tag : SpvDecoration) : Option SpvDeco :=
  decorations.find? fun deco => deco.decoration = tag ∧ (member < 0 ∨ deco.member = member)

def parseOpName (instruction : Instruction) : M Unit := do
  let target ← orFail (instruction.id? 1) .outOfBounds
  addDecoration target ⟨.shdName, -1, .str (decodeSpvStringLiteral (instruction.wordsFrom 2))⟩

def parseOpMemberName (instruction : Instruction) : M Unit := do
  let target ← orFail (instruction.id? 1) .outOfBounds
  -- the member is word 2
  let member ← orFail (instruction.word? 3) .outOfBounds
  addDecoration target
    ⟨.shdMemberName, member.toInt, .str (decodeSpvStringLiteral (instruction.wordsFrom 3))⟩

/-- `OpDecorate` and `OpExecutionMode`. -/
def parseOpDecorate (member : Int) (instruction : Instruction) : M Unit := do
  let target ← orFail (instruction.id? 1) .outOfBounds
  let decoration ← orFail (instruction.word? 2) .outOfBounds
  addDecoration target ⟨.decoration decoration, member, .literals (instruction.wordsFrom 3)⟩

def parseOpMemberDecorate (instruction : Instruction) : M Unit := do
  let target ← orFail (instruction.id? 1) .outOfBounds
  -- word 3 is the decoration, and taken for the member as well
  let decoration ← orFail (instruction.word? 3) .outOfBounds
  addDecoration target
    ⟨.decoration decoration, decoration.toInt, .literals (instruction.wordsFrom 4)⟩

/-- The execution models, as strings. -/
def entryPointType (model : Word) : Option (List WordStream.Byte) :=
  let bytes (text : String) : List WordStream.Byte := text.toUTF8.toList.map fun b => b.toBitVec
  if model = 5 ∨ model = 6 then some (bytes "Compute")
  else if model = 4 then some (bytes "Fragment")
  else if model = 0 then some (bytes "Vertex")
  else none

def parseOpEntryPoint (instruction : Instruction) : M Unit := do
  let model ← orFail (instruction.word? 1) .outOfBounds
  let target ← orFail (instruction.id? 2) .outOfBounds
  let type ← orFail (entryPointType model) .unsupportedOp
  addDecoration target ⟨.shdEntryPointType, -1, .str type⟩
  addDecoration target
    ⟨.shdEntryPointName, -1, .str (decodeSpvStringLiteral (instruction.wordsFrom 3))⟩

/-! ## Functions -/

/-- `SpvExecutionModeLocalSize` -/
def localSize : Word := 17

/-- `SIZE_MAX` -/
def sizeMax : Nat := 2 ^ 64 - 1

section Parser

variable (code : List Instruction) (parse : Nat → M Nat)

def instructionAt (offset : Nat) : M Instruction := orFail code[offset]? .outOfBounds

/-- `get_definition_by_id` -/
def getDefinitionById (id : SpvId) : M SpvDef := do
  match (← get).defs id with
  | .nothing => fail (.noOpDefines id)
  | .forward offset => do
      let _ ← parse offset
      let found := (← get).defs id
      match found with
      | .forward _ => fail (.assertion "parser->defs[id].type != Forward")
      | _ => return found
  | found => return found

def getDefType (id : SpvId) : M SpvType := do
  match ← getDefinitionById parse id with
  | .typ type => return type
  | _ => fail (.assertion "def->type == Typ")

/-- Whether the declaration is an intrinsic. -/
def getDefDecl (id : SpvId) : M Bool := do
  match ← getDefinitionById parse id with
  | .decl isIntrinsic => return isIntrinsic
  | _ => fail (.assertion "def->type == Decl")

/-- `get_def_ssa_value` -/
def getDefSsaValue (id : SpvId) : M SpvId := do
  match ← getDefinitionById parse id with
  | .value (some node) => return node
  | .decl _ => return id
  | _ => fail (.assertion "is_value(n) || is_instruction(n)")

def getDefSsaValues : List SpvId → M (List SpvId)
  | [] => return []
  | id :: rest => do
      let node ← getDefSsaValue parse id
      return node :: (← getDefSsaValues rest)

def getDefBlock (id : SpvId) : M (List SpvId) := do
  match ← getDefinitionById parse id with
  | .block params => return params
  | _ => fail (.assertion "def->type == BB")

/-- The values that are listed for argument `i` and the predecessor; the last one is kept. -/
def phiArg (arguments : List SpvPhiArgs) (predecessor : SpvId) (i : Nat) : Option SpvId :=
  ((arguments.filter fun arg => arg.predecessor = predecessor ∧ arg.argI = i).getLast?).map
    SpvPhiArgs.arg

/-- The arguments from `i` on. -/
def phiParams (arguments : List SpvPhiArgs) (predecessor : SpvId) : Nat → List SpvId → M (List SpvId)
  | _, [] => return []
  | i, _ :: rest => do
      let arg ← orFail (phiArg arguments predecessor i) (.assertion "params[i]")
      let node ← getDefSsaValue parse arg
      return node :: (← phiParams arguments predecessor (i + 1) rest)

/-- `get_args_from_phi` -/
def getArgsFromPhi (block predecessor : SpvId) : M (List SpvId) := do
  let params ← getDefBlock parse block
  phiParams parse ((← get).phiArguments block) predecessor 0 params

/-- `get_result_defined_at` -/
def getResultDefinedAt (offset : Nat) : M SpvId := do
  let instruction ← instructionAt code offset
  orFail instruction.result? .noResultDefined

/-- The ids in the words from `k` on. -/
def Instruction.idsFrom (instruction : Instruction) (k : Nat) : List SpvId :=
  (instruction.wordsFrom k).map BitVec.toNat

/-! ### Instructions of a block -/

/-- The instructions whose node is a `PrimOp`, with the values that they take. -/
def parsePrimOp (values : List SpvId) : M Unit := do
  let _ ← getDefSsaValues parse values
  addPrimOp

def parseOpVariable (instruction : Instruction) (result : SpvId) : M Unit := do
  addInstruction "StackAlloc" (some (← bbMem)) (.stackAlloc result)
  setDef result (.value (some result))
  if instruction.size = 5 then
    let init ← orFail (instruction.id? 4) .outOfBounds
    let value ← getDefSsaValue parse init
    addInstruction "Store" (some (← bbMem)) (.store result value)

def parseOpLoad (instruction : Instruction) (result : SpvId) : M Unit := do
  let src ← getDefSsaValue parse (← orFail (instruction.id? 3) .outOfBounds)
  addInstruction "Load" (some (← bbMem)) (.load result src)
  setDef result (.value (some result))

def parseOpStore (instruction : Instruction) : M Unit := do
  let ptr ← getDefSsaValue parse (← orFail (instruction.id? 1) .outOfBounds)
  let value ← getDefSsaValue parse (← orFail (instruction.id? 2) .outOfBounds)
  addInstruction "Store" (some (← bbMem)) (.store ptr value)

/-- `CopyBytes` is made without a `mem`; the size of what is copied is a `PrimOp`. -/
def parseOpCopyMemory (sized : Bool) (instruction : Instruction) : M Unit := do
  let dst ← getDefSsaValue parse (← orFail (instruction.id? 1) .outOfBounds)
  let src ← getDefSsaValue parse (← orFail (instruction.id? 2) .outOfBounds)
  if sized then
    let count ← getDefSsaValue parse (← orFail (instruction.id? 3) .outOfBounds)
    addInstruction "CopyBytes" none (.copyBytes dst src (some count))
  else addPrimOp

/-- `Call` is made without a `mem`, and an intrinsic is a `PrimOp`. -/
def parseOpFunctionCall (instruction : Instruction) (result : SpvId) : M Unit := do
  setDef result (.value none)
  let callee ← orFail (instruction.id? 3) .outOfBounds
  let isIntrinsic ← getDefDecl parse callee
  let args ← getDefSsaValues parse (instruction.idsFrom 4)
  let type ← getDefType parse (← orFail (instruction.id? 1) .outOfBounds)
  if isIntrinsic then addPrimOp
  else
    addInstruction "Call" none (.call result callee args)
    if type ≠ .unit then setDef result (.value (some result))

def recordPhiArg (block : SpvId) (arg : SpvPhiArgs) : M Unit :=
  modify fun st => { st with phiArguments := fun other =>
    if other = block then st.phiArguments other ++ [arg] else st.phiArguments other }

/-- The pairs of a value and a predecessor. -/
def recordPhiArgs (argI : Nat) (block : SpvId) : List SpvId → M Unit
  | arg :: predecessor :: rest => do
      recordPhiArg block ⟨predecessor, argI, arg⟩
      recordPhiArgs argI block rest
  | _ => return ()

def parseOpPhi (instruction : Instruction) (result : SpvId) : M Unit := do
  setDef result (.value (some result))
  ensure (instruction.size % 2 == 1) "size % 2 == 1"
  let st ← get
  recordPhiArgs st.funArgI st.currentBlock.id (instruction.idsFrom 3)
  modify fun st => { st with funArgI := st.funArgI + 1 }

/-! ### Terminators -/

/-- The target of a jump and its arguments. -/
def jumpTo (target : SpvId) : M (List SpvId) := do
  let _ ← getDefBlock parse target
  getArgsFromPhi parse target (← get).currentBlock.id

def parseOpBranch (instruction : Instruction) : M Unit := do
  let target ← orFail (instruction.id? 1) .outOfBounds
  let args ← jumpTo parse target
  finish (.jump ⟨← bbMem, target, args⟩)

/-- `Branch` is made without a `mem`. -/
def parseOpBranchConditional (instruction : Instruction) : M Unit := do
  let first ← orFail (instruction.id? 2) .outOfBounds
  let second ← orFail (instruction.id? 3) .outOfBounds
  let trueArgs ← jumpTo parse first
  let trueJump : Jump := ⟨← bbMem, first, trueArgs⟩
  let falseArgs ← jumpTo parse second
  let falseJump : Jump := ⟨← bbMem, second, falseArgs⟩
  let condition ← getDefSsaValue parse (← orFail (instruction.id? 1) .outOfBounds)
  let mem ← createNode "Branch" none
  finish (.branch mem condition trueJump falseJump)

/-- `Return` is made without a `mem`. -/
def parseOpReturn (values : List SpvId) : M Unit := do
  let args ← getDefSsaValues parse values
  let mem ← createNode "Return" none
  finish (.fnRet mem args)

/-! ### Blocks -/

/-- The phi instructions of a block, from `offset` on. -/
def parsePhis : Nat → Nat → M (List SpvId × Nat)
  | 0, offset => return ([], offset)
  | bound + 1, offset => do
      let instruction ← instructionAt code offset
      if instruction.op = .opPhi then
        let s ← parse offset
        ensure (0 < s) "s > 0"
        let param ← getResultDefinedAt code offset
        let _ ← getDefinitionById parse param
        let (params, after) ← parsePhis bound (offset + s)
        return (param :: params, after)
      else return ([], offset)

/-- The instructions of a block, until its builder is finished; a bound of as many steps as there are
instructions is not met before the end of the module. -/
def parseBlockBody : Nat → Nat → M Nat
  | 0, offset => return offset
  | bound + 1, offset => do
      match (← get).currentBlock.builder with
      | none => return offset
      | some _ =>
          let s ← parse offset
          ensure (0 < s) "s > 0"
          parseBlockBody bound (offset + s)

def parseOpLabel (offset : Nat) (result : SpvId) : M Nat := do
  let old := (← get).currentBlock
  modify fun st => { st with currentBlock := { st.currentBlock with id := result }, funArgI := 0 }
  let (params, first) ← parsePhis code parse code.length (offset + 1)
  setDef result (.block params)
  modify fun st => { st with currentBlock :=
    { st.currentBlock with builder := some ⟨.basicBlock result, []⟩, finished := none } }
  let after ← parseBlockBody parse code.length first
  let body ← orFail (← get).currentBlock.finished (.assertion "parser->current_block.finished")
  setBlockBody result body
  modify fun st => { st with currentBlock := old }
  return after - offset

/-! ### Functions -/

def parseParameters : Nat → Nat → M Nat
  | 0, offset => return offset
  | bound + 1, offset => do
      let instruction ← instructionAt code offset
      if instruction.op = .opFunctionParameter then
        let s ← parse offset
        ensure (0 < s) "s > 0"
        let _ ← getDefSsaValue parse (← getResultDefinedAt code offset)
        parseParameters bound (offset + s)
      else return offset

/-- The blocks of a function, and the first one of them. -/
def parseBlocks : Nat → Option SpvId → Nat → M (Option SpvId × Nat)
  | 0, first, offset => return (first, offset)
  | bound + 1, first, offset => do
      let instruction ← instructionAt code offset
      if instruction.op = .opFunctionEnd then return (first, offset)
      else
        let s ← parse offset
        ensure (0 < s) "s > 0"
        let label ← getResultDefinedAt code offset
        let _ ← getDefBlock parse label
        parseBlocks bound (first.or (some label)) (offset + s)

/-- What the annotations of an entry point are checked for. -/
def checkEntryPoint (decorations : List SpvDeco) : M Bool := do
  match findDecoration decorations (-1) .shdEntryPointType with
  | none => return false
  | some type =>
      if some type.payload = (entryPointType 5).map .str then
        match findDecoration decorations (-2) (.decoration localSize) with
        | some ⟨_, _, .literals data⟩ =>
            ensure (data.length == 3) "we require kernels decorated with a workgroup size"
            return true
        | _ => fail (.assertion "we require kernels decorated with a workgroup size")
      else return true

/-- The blocks behind the parameters, and the end. -/
def parseFunctionBody (offset : Nat) (result : SpvId) (afterParams : Nat) : M Nat := do
  let old := (← get).function
  modify fun st => { st with function := some result }
  let (first, afterBlocks) ← parseBlocks code parse code.length none afterParams
  let s ← parse afterBlocks
  match first with
  | some block => setFunBody result (((← get).blockBodies block).map Subtype.val)
  | none => pure ()
  modify fun st => { st with function := old }
  return afterBlocks + s - offset

def parseOpFunction (offset : Nat) (instruction : Instruction) (result : SpvId) : M Nat := do
  setDef result (.decl false)
  let type ← getDefType parse (← orFail (instruction.id? 4) .outOfBounds)
  ensure (type = .fnType) "t && t->tag == FnType_TAG"
  let isEntryPt ← checkEntryPoint ((← get).decorations result)
  modify fun st => { st with isEntryPt := isEntryPt }
  let afterParams ← parseParameters code parse code.length (offset + 1)
  parseFunctionBody code parse offset result afterParams

/-! ### All instructions -/

/-- The cases of `parse_spv_instruction_at` of instructions with a result. -/
def parseResult (offset : Nat) (instruction : Instruction) (result : SpvId) : M Nat := do
  match instruction.op with
  | .opFunction => parseOpFunction code parse offset instruction result
  | .opLabel => parseOpLabel code parse offset result
  | .opFunctionParameter => do
      setDef result (.value (some result))
      return 1
  | .opPhi => do
      parseOpPhi instruction result
      return 1
  | .opVariable => do
      parseOpVariable parse instruction result
      return 1
  | .opMapped => do
      parsePrimOp parse (instruction.idsFrom 3)
      return 1
  | .opConvert => do
      parsePrimOp parse [← orFail (instruction.id? 3) .outOfBounds]
      return 1
  | .opCompositeExtract => do
      parsePrimOp parse [← orFail (instruction.id? 3) .outOfBounds]
      return 1
  | .opCompositeInsert => do
      parsePrimOp parse
        [← orFail (instruction.id? 4) .outOfBounds, ← orFail (instruction.id? 3) .outOfBounds]
      return 1
  | .opCopyObject => do
      let node ← getDefSsaValue parse (← orFail (instruction.id? 3) .outOfBounds)
      setDef result (.value (some node))
      return 1
  | .opCompositeConstruct => do
      let _ ← getDefSsaValues parse (instruction.idsFrom 3)
      setDef result (.value (some result))
      return 1
  | .opPtrAccessChain => do
      let _ ← getDefSsaValues parse (instruction.idsFrom 3)
      setDef result (.value (some result))
      return 1
  | .opAccessChain => do
      let _ ← getDefSsaValues parse (instruction.idsFrom 3)
      setDef result (.value (some result))
      return 1
  | .opLoad => do
      parseOpLoad parse instruction result
      return 1
  | .opFunctionCall => do
      parseOpFunctionCall parse instruction result
      return 1
  | _ => fail .unsupportedOp

/-- The cases of the others. -/
def parseOther (instruction : Instruction) : M Unit :=
  match instruction.op with
  | .opName => parseOpName instruction
  | .opMemberName => parseOpMemberName instruction
  | .opEntryPoint => parseOpEntryPoint instruction
  | .opExecutionMode => parseOpDecorate (-2) instruction
  | .opDecorate => parseOpDecorate (-1) instruction
  | .opMemberDecorate => parseOpMemberDecorate instruction
  | .opFunctionEnd | .opSelectionMerge | .opLifetimeStart | .opLifetimeStop => pure ()
  | .opStore => parseOpStore parse instruction
  | .opCopyMemory => parseOpCopyMemory parse false instruction
  | .opCopyMemorySized => parseOpCopyMemory parse true instruction
  | .opBranch => parseOpBranch parse instruction
  | .opBranchConditional => parseOpBranchConditional parse instruction
  | .opReturn => parseOpReturn parse []
  | .opReturnValue => do
      parseOpReturn parse [← orFail (instruction.id? 1) .outOfBounds]
  | _ => fail .unsupportedOp

/-- An instruction whose result is not read yet. -/
def parseForward (offset : Nat) (instruction : Instruction) (result : SpvId) : M Nat := do
  if instruction.op.hasResultAndType.2 then
    let _ ← getDefType parse (← orFail (instruction.id? 1) .outOfBounds)
  let size ← parseResult code parse offset instruction result
  setFinalSize result size
  return size

def parseInstruction (offset : Nat) : M Nat := do
  let instruction ← instructionAt code offset
  if instruction.op.hasResultAndType.1 then
    let result ← orFail instruction.result? .outOfBounds
    let st ← get
    match st.defs result with
    | .nothing => fail (.assertion "consistency issue")
    | .forward _ =>
        if 0 < st.finalSize result then return st.finalSize result
        else parseForward code parse offset instruction result
    | _ => if 0 < st.finalSize result then return st.finalSize result else return sizeMax
  else
    parseOther parse instruction
    return 1

end Parser

/-- `parse_spv_instruction_at`, nested up to a depth. -/
def parseSpvInstructionAt (code : List Instruction) : Nat → Nat → M Nat
  | 0, _ => fail .depth
  | depth + 1, offset => parseInstruction code (parseSpvInstructionAt code depth) offset

/-- The loop of `shd_parse_spirv`. -/
def parseFrom (code : List Instruction) (depth : Nat) : Nat → Nat → M Unit
  | 0, _ => pure ()
  | bound + 1, cursor =>
      if cursor < code.length then do
        let s ← parseSpvInstructionAt code depth cursor
        parseFrom code depth bound (cursor + s)
      else pure ()

/-- `scan_definitions` -/
def scanDefinitions (prior : SpvId → SpvDef) (code : List Instruction) : SpvId → SpvDef := fun id =>
  match code.findIdx? fun instruction => instruction.result? = some id with
  | some offset => .forward offset
  | none => prior id

def SpvParser.initial (prior : SpvId → SpvDef) (code : List Instruction) : SpvParser where
  defs := scanDefinitions prior code
  finalSize := fun _ => 0
  decorations := fun _ => []
  phiArguments := fun _ => []
  isEntryPt := false
  funArgI := 0
  function := none
  currentBlock := ⟨0, none, none⟩
  blockBodies := fun _ => none
  funBodies := fun _ => none

/-- What is read after the definitions `prior`; every nested definition is another one. -/
def shdParseSpirv (prior : SpvId → SpvDef) (code : List Instruction) : Except SpvError SpvParser := do
  let (_, st) ← (parseFrom code (code.length + 2) code.length 0).run (.initial prior code)
  return st

end Shady.S2s
