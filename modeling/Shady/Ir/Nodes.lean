import Shady.Ir.ControlFlow

/-!
# Nodes and their operands

The nodes that a function is made of, with the operands that visitors see. Nodes are made
after their operands, but for blocks, which are referred to by address.
-/

set_option autoImplicit false

namespace Shady

/-- The values and instructions other than parameters. -/
inductive NodeTag
  | constrainedValue | untypedNumber | intLiteral | floatLiteral | stringLiteral | trueLiteral
  | falseLiteral | nullPtr | composite | fill | undef | refDecl | fnAddr | call | memAndValue
  | comment | extInstr | primOp | stackAlloc | localAlloc | load | store | ptrCompositeElement
  | ptrArrayElementOffset | copyBytes | fillBytes | pushStack | popStack | getStackSize
  | setStackSize | getStackBaseAddr | debugPrintf
  deriving DecidableEq, Repr

/-- Whether nodes with this tag are of the class `value`. -/
def NodeTag.isValue : NodeTag → Bool
  | .comment | .store | .copyBytes | .fillBytes | .pushStack | .setStackSize | .debugPrintf => false
  | _ => true

/-- A node of the class `value` or `mem`, with its address and its operands of these
    classes. An instruction has a `mem` operand, which comes first. -/
inductive IrNode
  | param (id : ValueId) (abs : AbsId)
  | absMem (id : ValueId) (abs : AbsId)
  | pure (id : ValueId) (tag : NodeTag) (operands : List IrNode)
  | instr (id : ValueId) (tag : NodeTag) (mem : IrNode) (operands : List IrNode)

namespace IrNode

def id : IrNode → ValueId
  | .param id _ => id
  | .absMem id _ => id
  | .pure id _ _ => id
  | .instr id _ _ _ => id

def isValue : IrNode → Bool
  | .param _ _ => true
  | .absMem _ _ => false
  | .pure _ tag _ => tag.isValue
  | .instr _ tag _ _ => tag.isValue

def operands : IrNode → List IrNode
  | .param _ _ => []
  | .absMem _ _ => []
  | .pure _ _ operands => operands
  | .instr _ _ mem operands => mem :: operands

/-! ## Induction and equality -/

mutual
theorem inductOn {P : IrNode → Prop} (param : ∀ id abs, P (.param id abs))
    (absMem : ∀ id abs, P (.absMem id abs))
    (pure : ∀ id tag operands, (∀ o ∈ operands, P o) → P (.pure id tag operands))
    (instr : ∀ id tag mem operands, P mem → (∀ o ∈ operands, P o) → P (.instr id tag mem operands)) :
    ∀ n, P n
  | .param id abs => param id abs
  | .absMem id abs => absMem id abs
  | .pure id tag operands => pure id tag operands (inductOnAll param absMem pure instr operands)
  | .instr id tag mem operands =>
      instr id tag mem operands (inductOn param absMem pure instr mem)
        (inductOnAll param absMem pure instr operands)

theorem inductOnAll {P : IrNode → Prop} (param : ∀ id abs, P (.param id abs))
    (absMem : ∀ id abs, P (.absMem id abs))
    (pure : ∀ id tag operands, (∀ o ∈ operands, P o) → P (.pure id tag operands))
    (instr : ∀ id tag mem operands, P mem → (∀ o ∈ operands, P o) → P (.instr id tag mem operands)) :
    ∀ ns : List IrNode, ∀ o ∈ ns, P o
  | [], _, member => nomatch member
  | n :: ns, o, member => by
      cases List.mem_cons.mp member with
      | inl first => exact first ▸ inductOn param absMem pure instr n
      | inr later => exact inductOnAll param absMem pure instr ns o later
end

mutual
def same : IrNode → IrNode → Bool
  | .param i a, .param j b => i = j ∧ a = b
  | .absMem i a, .absMem j b => i = j ∧ a = b
  | .pure i t ns, .pure j u ms => (i = j ∧ t = u) && sameAll ns ms
  | .instr i t n ns, .instr j u m ms => (i = j ∧ t = u) && same n m && sameAll ns ms
  | _, _ => false

def sameAll : List IrNode → List IrNode → Bool
  | [], [] => true
  | n :: ns, m :: ms => same n m && sameAll ns ms
  | _, _ => false
end

theorem sameAll_iff {ns : List IrNode} (each : ∀ n ∈ ns, ∀ m, same n m = true ↔ n = m) :
    ∀ ms, sameAll ns ms = true ↔ ns = ms := by
  induction ns with
  | nil => intro ms; cases ms <;> simp [sameAll]
  | cons n ns ih =>
      intro ms
      obtain ⟨first, rest⟩ := List.forall_mem_cons.mp each
      cases ms with
      | nil => simp [sameAll]
      | cons m ms => simp [sameAll, first, ih rest]

theorem same_iff (n : IrNode) : ∀ m, same n m = true ↔ n = m := by
  induction n using inductOn with
  | param id abs => intro m; cases m <;> simp [same]
  | absMem id abs => intro m; cases m <;> simp [same]
  | pure id tag operands ih => intro m; cases m <;> simp [same, sameAll_iff ih, and_assoc]
  | instr id tag mem operands ihMem ih =>
      intro m
      cases m <;> simp [same, sameAll_iff ih, ihMem, and_assoc]

instance : DecidableEq IrNode := fun n m => decidable_of_iff (same n m = true) (same_iff n m)

end IrNode

/-! ## Terminators and abstractions -/

structure JumpNode where
  mem : IrNode
  target : AbsId
  args : List IrNode
  deriving DecidableEq

inductive TerminatorNode
  | ifInstr (mem condition : IrNode) (ifTrue : AbsId) (ifFalse : Option AbsId) (tail : AbsId)
  | matchInstr (mem inspect : IrNode) (literals : List IrNode) (cases : List AbsId)
      (defaultCase tail : AbsId)
  | loopInstr (mem : IrNode) (body : AbsId) (initialArgs : List IrNode) (tail : AbsId)
  | control (mem : IrNode) (inside tail : AbsId)
  | tailCall (mem callee : IrNode) (args : List IrNode)
  | jump (jump : JumpNode)
  | branch (mem condition : IrNode) (trueJump falseJump : JumpNode)
  | brSwitch (mem switchValue : IrNode) (caseValues : List IrNode) (caseJumps : List JumpNode)
      (defaultJump : JumpNode)
  | join (mem joinPoint : IrNode) (args : List IrNode)
  | mergeContinue (mem : IrNode) (args : List IrNode)
  | mergeBreak (mem : IrNode) (args : List IrNode)
  | mergeSelection (mem : IrNode) (args : List IrNode)
  | fnRet (mem : IrNode) (args : List IrNode)
  | unreachable (mem : IrNode)
  deriving DecidableEq

def JumpNode.toJump (j : JumpNode) : Jump := ⟨j.target, j.args.map IrNode.id⟩

/-- What control flow graphs see of a terminator. -/
def TerminatorNode.controlFlow : TerminatorNode → Terminator
  | .ifInstr _ _ ifTrue ifFalse tail => .ifInstr ifTrue ifFalse tail
  | .matchInstr _ _ _ cases defaultCase tail => .matchInstr cases defaultCase tail
  | .loopInstr _ body _ tail => .loopInstr body tail
  | .control _ inside tail => .control inside tail
  | .tailCall _ _ _ => .tailCall
  | .jump j => .jump j.toJump
  | .branch _ _ trueJump falseJump => .branch trueJump.toJump falseJump.toJump
  | .brSwitch _ _ _ caseJumps defaultJump => .brSwitch (caseJumps.map JumpNode.toJump) defaultJump.toJump
  | .join _ joinPoint _ => .join joinPoint.id
  | .mergeContinue _ _ => .mergeContinue
  | .mergeBreak _ _ => .mergeBreak
  | .mergeSelection _ _ => .mergeSelection
  | .fnRet _ _ => .fnRet
  | .unreachable _ => .unreachable

/-- The operands of the classes `mem` and `value`, in order. -/
def TerminatorNode.dependencies : TerminatorNode → List IrNode
  | .ifInstr mem condition _ _ _ => [mem, condition]
  | .matchInstr mem inspect literals _ _ _ => mem :: inspect :: literals
  | .loopInstr mem _ initialArgs _ => mem :: initialArgs
  | .control mem _ _ => [mem]
  | .tailCall mem callee args => mem :: callee :: args
  | .jump j => j.mem :: j.args
  | .branch mem condition _ _ => [mem, condition]
  | .brSwitch mem switchValue caseValues _ _ => mem :: switchValue :: caseValues
  | .join mem joinPoint args => mem :: joinPoint :: args
  | .mergeContinue mem args => mem :: args
  | .mergeBreak mem args => mem :: args
  | .mergeSelection mem args => mem :: args
  | .fnRet mem args => mem :: args
  | .unreachable mem => [mem]

structure AbstractionNode where
  isFunction : Bool
  params : List IrNode
  body : Option TerminatorNode

structure FunctionNode where
  self : AbsId
  abstractions : List (AbsId × AbstractionNode)

def FunctionNode.get (f : FunctionNode) (abs : AbsId) : Option AbstractionNode :=
  f.abstractions.lookup abs

def AbstractionNode.controlFlow (abs : AbstractionNode) : Abstraction :=
  ⟨abs.isFunction, abs.params.map IrNode.id, abs.body.map TerminatorNode.controlFlow⟩

def FunctionNode.controlFlow (f : FunctionNode) : Function :=
  ⟨f.self, f.abstractions.map fun entry => (entry.1, entry.2.controlFlow)⟩

/-! ## Visiting -/

/-- A node that a visitor of a function's body meets. -/
inductive BodyNode
  | value (n : IrNode)
  | terminator (t : TerminatorNode)
  | block (b : AbsId)
  deriving DecidableEq

/-- The operands in order, all but types, declarations and those of the class
    `abstraction`. -/
def TerminatorNode.operands : TerminatorNode → List BodyNode
  | .ifInstr mem condition ifTrue ifFalse tail =>
      [.value mem, .value condition, .block ifTrue] ++ ifFalse.toList.map .block ++ [.block tail]
  | .matchInstr mem inspect literals cases defaultCase tail =>
      [.value mem, .value inspect] ++ literals.map .value ++ cases.map .block ++ [.block defaultCase, .block tail]
  | .loopInstr mem body initialArgs tail =>
      [.value mem, .block body] ++ initialArgs.map .value ++ [.block tail]
  | .control mem inside tail => [.value mem, .block inside, .block tail]
  | .jump j => [.value j.mem, .block j.target] ++ j.args.map .value
  | .branch mem condition trueJump falseJump =>
      [.value mem, .value condition, .terminator (.jump trueJump), .terminator (.jump falseJump)]
  | .brSwitch mem switchValue caseValues caseJumps defaultJump =>
      [.value mem, .value switchValue] ++ caseValues.map .value
        ++ caseJumps.map (fun j => .terminator (.jump j)) ++ [.terminator (.jump defaultJump)]
  | t => t.dependencies.map .value

/-- What `shd_visit_node_operands` visits of a node. -/
def FunctionNode.operands (f : FunctionNode) : BodyNode → List BodyNode
  | .value n => n.operands.map .value
  | .terminator t => t.operands
  | .block b =>
      match f.get b with
      | none => []
      | some abs => abs.params.map .value ++ (abs.body.map .terminator).toList

end Shady
