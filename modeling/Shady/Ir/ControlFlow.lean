import Mathlib.Data.List.Basic

/-!
# Abstractions and terminators

The control flow that analyses see: a function and its basic blocks, each with
its parameters and the terminator of its body. Operands are kept where control
flow depends on them, which is only the join point of a `Join`.
-/

set_option autoImplicit false

namespace Shady

/-- The address of an abstraction (`Function` or `BasicBlock`) node. -/
abbrev AbsId := Nat

/-- The address of a value node, such as a parameter. -/
abbrev ValueId := Nat

structure Jump where
  target : AbsId
  args : List ValueId
  deriving DecidableEq, Repr

/-- The terminators, with the tail that `get_structured_construct_tail` gives
for each structured construct. -/
inductive Terminator
  | jump (jump : Jump)
  | branch (trueJump falseJump : Jump)
  | brSwitch (caseJumps : List Jump) (defaultJump : Jump)
  | ifInstr (ifTrue : AbsId) (ifFalse : Option AbsId) (tail : AbsId)
  | matchInstr (cases : List AbsId) (defaultCase : AbsId) (tail : AbsId)
  | loopInstr (body tail : AbsId)
  | control (inside tail : AbsId)
  | join (joinPoint : ValueId)
  | mergeSelection
  | mergeContinue
  | mergeBreak
  | tailCall
  | fnRet
  | unreachable
  deriving DecidableEq, Repr

structure Abstraction where
  isFunction : Bool
  params : List ValueId
  /-- No body: a declaration, or a block under construction. -/
  body : Option Terminator
  deriving DecidableEq, Repr

/-- A function together with the basic blocks that its body leads to. -/
structure Function where
  self : AbsId
  abstractions : List (AbsId × Abstraction)
  deriving DecidableEq, Repr

def Function.get (function : Function) (abs : AbsId) : Option Abstraction :=
  function.abstractions.lookup abs

end Shady
