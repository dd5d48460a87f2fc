import Shady.Library.Imperative

/-!
# Structured functions

A function after the control flow has been lowered to If, Match and Loop. An abstraction
is named by the way to it from the entry, the last step first; an instruction by its
abstraction and its position in the chain of memory operations. Values are trees over
parameters and instructions.

The run of a function can be made strict. A strict run stops where the text that stands
for a value would have to be read although the memory, or a variable of the loop, no
longer holds what the value was computed from.
-/

set_option autoImplicit false

namespace Shady.Backend

open Imperative

/-- The steps from the entry to an abstraction, the last one first. -/
abbrev Abs : Type := List Nat

mutual
inductive Value (Op : Type)
  | param (abs : Abs) (i : Nat)
  | literal (n : Nat)
  | load (abs : Abs) (k : Nat) (ptr : Value Op)
  | result (abs : Abs) (k : Nat)
  | primOp (op : Op) (operands : Operands Op)
  /-- PtrCompositeElement, PtrArrayElementOffset and Composite: no variable is made for these. -/
  | inlined (op : Op) (operands : Operands Op)
  deriving DecidableEq
inductive Operands (Op : Type)
  | nil
  | cons (head : Value Op) (tail : Operands Op)
  deriving DecidableEq
end

inductive Effect (Fn : Type)
  | store
  | call (direct : Option Fn)
  | copyBytes
  | fillBytes
  | localAlloc
  deriving DecidableEq

inductive Callee (Op Fn : Type)
  | fnAddr (fn : Fn)
  | value (v : Value Op)

inductive Instr (Op Fn : Type)
  | load (ptr : Value Op)
  | store (ptr value : Value Op)
  | call (callee : Callee Op Fn) (args : Operands Op) (returns : Bool)
  | copyBytes (dst src count : Value Op)
  | fillBytes (dst src count : Value Op)
  | localAlloc

mutual
inductive Body (Op Fn : Type)
  | mk (instrs : List (Instr Op Fn)) (terminator : Terminator Op Fn)
/-- The bodies of a construct are the steps 0, 1, 3, 4, … below its abstraction, the tail is step 2. -/
inductive Terminator (Op Fn : Type)
  | ret (args : Operands Op)
  | unreachable
  | ifThen (yields : Nat) (condition : Value Op) (ifTrue : Body Op Fn)
      (ifFalse : Alternative Op Fn) (tail : Body Op Fn)
  | matchOn (yields : Nat) (inspect : Value Op) (cases : Cases Op Fn)
      (defaultCase tail : Body Op Fn)
  | loop (initialArgs : Operands Op) (yields : Nat) (body tail : Body Op Fn)
  | mergeSelection (args : Operands Op)
  | mergeContinue (args : Operands Op)
  | mergeBreak (args : Operands Op)
inductive Alternative (Op Fn : Type)
  | absent
  | present (body : Body Op Fn)
inductive Cases (Op Fn : Type)
  | nil
  | cons (literal : Nat) (body : Body Op Fn) (rest : Cases Op Fn)
end

structure Function (Op Fn : Type) where
  params : Nat
  body : Body Op Fn

section Syntax
variable {Op Fn : Type}

def Operands.toList : Operands Op → List (Value Op)
  | .nil => []
  | .cons head tail => head :: tail.toList

def Operands.snoc (last : Value Op) : Operands Op → Operands Op
  | .nil => .cons last .nil
  | .cons head tail => .cons head (tail.snoc last)

/-- What an instruction other than a load does, its operands, and whether it has a result. -/
def Instr.effect : Instr Op Fn → Option (Effect Fn × Operands Op × Bool)
  | .load _ => none
  | .store ptr value => some (.store, .cons ptr (.cons value .nil), false)
  | .call (.fnAddr fn) args returns => some (.call (some fn), args, returns)
  | .call (.value v) args returns => some (.call none, args.snoc v, returns)
  | .copyBytes dst src count => some (.copyBytes, .cons dst (.cons src (.cons count .nil)), false)
  | .fillBytes dst src count => some (.fillBytes, .cons dst (.cons src (.cons count .nil)), false)
  | .localAlloc => some (.localAlloc, .nil, true)

def Instr.operands : Instr Op Fn → Operands Op
  | .load ptr => .cons ptr .nil
  | instr => (instr.effect.map fun e => e.2.1).getD .nil

/-! ## Where a value is placed -/

/-- Of two abstractions, one inside the other, the inner one. -/
def scheduleAfter : Option Abs → Option Abs → Option Abs
  | scheduled, none => scheduled
  | none, some req => some req
  | some old, some req => if old.length < req.length then some req else some old

mutual
def Value.schedule : Value Op → Option Abs
  | .param abs _ => some abs
  | .literal _ => none
  | .load abs _ ptr => scheduleAfter (some abs) ptr.schedule
  | .result abs _ => some abs
  | .primOp _ operands => operands.schedule none
  | .inlined _ operands => operands.schedule none
def Operands.schedule : Operands Op → Option Abs → Option Abs
  | .nil, scheduled => scheduled
  | .cons head tail, scheduled => tail.schedule (scheduleAfter scheduled head.schedule)
end

/-- What has no place of its own goes to the entry. -/
def Value.home (v : Value Op) : Abs := v.schedule.getD []

mutual
def Value.subterms : Value Op → List (Value Op)
  | .param abs i => [.param abs i]
  | .literal n => [.literal n]
  | .load abs k ptr => .load abs k ptr :: ptr.subterms
  | .result abs k => [.result abs k]
  | .primOp op operands => .primOp op operands :: operands.subterms
  | .inlined op operands => .inlined op operands :: operands.subterms
def Operands.subterms : Operands Op → List (Value Op)
  | .nil => []
  | .cons head tail => head.subterms ++ tail.subterms
end

def subtermsOf (vs : List (Value Op)) : List (Value Op) := vs.flatMap Value.subterms

def chainValues (instrs : List (Instr Op Fn)) : List (Value Op) :=
  instrs.flatMap fun instr => instr.operands.toList

mutual
def Body.values : Body Op Fn → List (Value Op)
  | .mk instrs terminator => chainValues instrs ++ terminator.values
/-- The operands of a terminator and of everything in its bodies and its tail. -/
def Terminator.values : Terminator Op Fn → List (Value Op)
  | .ret args => args.toList
  | .unreachable => []
  | .ifThen _ condition ifTrue ifFalse tail =>
      condition :: ifTrue.values ++ ifFalse.values ++ tail.values
  | .matchOn _ inspect cases defaultCase tail =>
      inspect :: defaultCase.values ++ tail.values ++ cases.values
  | .loop initialArgs _ body tail => initialArgs.toList ++ body.values ++ tail.values
  | .mergeSelection args => args.toList
  | .mergeContinue args => args.toList
  | .mergeBreak args => args.toList
def Alternative.values : Alternative Op Fn → List (Value Op)
  | .absent => []
  | .present body => body.values
def Cases.values : Cases Op Fn → List (Value Op)
  | .nil => []
  | .cons literal body rest => .literal literal :: body.values ++ rest.values
end

/-- The operands of the terminator itself. -/
def Terminator.operands : Terminator Op Fn → List (Value Op)
  | .ret args => args.toList
  | .unreachable => []
  | .ifThen _ condition _ _ _ => [condition]
  | .matchOn _ inspect _ _ _ => [inspect]
  | .loop initialArgs _ _ _ => initialArgs.toList
  | .mergeSelection args => args.toList
  | .mergeContinue args => args.toList
  | .mergeBreak args => args.toList

end Syntax

/-! ## Runs -/

structure Env (Word : Type) where
  params : Abs → List Word
  results : Abs → List Word

/-- The places of a text that a run passes: a body, and the end of each transfer. -/
inductive Label
  | body (abs : Abs)
  | selection
  | loopContinue
  | loopBreak
  deriving DecidableEq

inductive Outcome (Word : Type)
  | returned (words : List Word)
  | selection (words : List Word)
  | loopContinue (words : List Word)
  | loopBreak (words : List Word)
  deriving DecidableEq

structure Config (Fn Word Mem : Type) where
  env : Env Word
  world : World (Effect Fn) Label Word Mem

section Semantics
variable {Op Fn Word Mem : Type}

def Env.setParams (env : Env Word) (abs : Abs) (words : List Word) : Env Word :=
  { env with params := Function.update env.params abs words }

def Env.setResults (env : Env Word) (abs : Abs) (words : List Word) : Env Word :=
  { env with results := Function.update env.results abs words }

variable (m : Machine Op (Effect Fn) Word Mem)

mutual
def Value.eval (env : Env Word) : Value Op → Option Word
  | .param abs i => (env.params abs)[i]?
  | .literal n => some (m.literal n)
  | .load abs k _ => (env.results abs)[k]?
  | .result abs k => (env.results abs)[k]?
  | .primOp op operands => (operands.eval env).map (m.operate op)
  | .inlined op operands => (operands.eval env).map (m.operate op)
def Operands.eval (env : Env Word) : Operands Op → Option (List Word)
  | .nil => some []
  | .cons head tail =>
      (head.eval env).bind fun word => (tail.eval env).map (word :: ·)
end

/-! ## What a strict run asks for -/

section Strictness
variable [DecidableEq Word]

mutual
/-- The text of the value still means the value: the parameters it spells are held, and
    each address it reads from has the content it had. -/
def Value.steady (held : Abs → Nat → Bool) (env : Env Word) (mem : Mem) : Value Op → Bool
  | .param abs i => held abs i
  | .literal _ => true
  | .load abs k ptr =>
      ptr.steady held env mem &&
        match (env.results abs)[k]?, ptr.eval m env with
        | some word, some address => m.fetch mem address = word
        | _, _ => false
  | .result _ _ => true
  | .primOp _ _ => true
  | .inlined _ operands => operands.steady held env mem
def Operands.steady (held : Abs → Nat → Bool) (env : Env Word) (mem : Mem) : Operands Op → Bool
  | .nil => true
  | .cons head tail => head.steady held env mem && tail.steady held env mem
end

/-- A primop is computed from texts of its operands. -/
def Value.computable (held : Abs → Nat → Bool) (env : Env Word) (mem : Mem) : Value Op → Bool
  | .primOp _ operands => operands.steady m held env mem
  | _ => true

variable [DecidableEq Op]

/-- What is placed in the abstraction, and needed now but not earlier. -/
def pending (abs : Abs) (earlier now : List (Value Op)) : List (Value Op) :=
  (subtermsOf now).filter fun v => v.home = abs ∧ v ∉ subtermsOf earlier

def steadyAt (held : Abs → Nat → Bool) (env : Env Word) (mem : Mem) (abs : Abs)
    (earlier now direct : List (Value Op)) : Bool :=
  (pending abs earlier now).all (fun v => v.computable m held env mem)
    && direct.all fun v => v.steady m held env mem

/-- The parameters that still hold their value before the `i`-th assignment of a transfer
    to the parameters of `head`. -/
def heldBefore (env : Env Word) (head : Abs) (words : List Word) (i : Nat) (abs : Abs) (j : Nat) :
    Bool :=
  !(decide (abs = head) && decide (j < i) && decide ((env.params head)[j]? ≠ words[j]?))

def heldAlways : Abs → Nat → Bool := fun _ _ => true

/-- The arguments of a transfer are computed one after the other, between the assignments. -/
def steadyTransfer (held : Nat → Abs → Nat → Bool) (env : Env Word) (mem : Mem) (abs : Abs) :
    List (Value Op) → Nat → List (Value Op) → Bool
  | _, _, [] => true
  | earlier, i, arg :: args =>
      steadyAt m (held i) env mem abs earlier [arg] [arg]
        && steadyTransfer held env mem abs (earlier ++ [arg]) (i + 1) args

def Terminator.steady (env : Env Word) (mem : Mem) (head abs : Abs) (earlier : List (Value Op)) :
    Terminator Op Fn → Bool
  | .mergeSelection args =>
      steadyTransfer m (fun _ => heldAlways) env mem abs earlier 0 args.toList
  | .mergeBreak args =>
      steadyTransfer m (fun _ => heldAlways) env mem abs earlier 0 args.toList
  | .mergeContinue args =>
      ((args.eval m env).map fun words =>
        steadyTransfer m (heldBefore env head words) env mem abs earlier 0 args.toList).getD false
  | t => steadyAt m heldAlways env mem abs earlier t.values t.operands

end Strictness

/-! ## The run of a function -/

namespace Config
variable (c : Config Fn Word Mem)

def enter (abs : Abs) : Config Fn Word Mem :=
  { env := c.env.setResults abs [], world := c.world.record (.marked (.body abs) []) }

def push (abs : Abs) (word : Word) : Config Fn Word Mem :=
  { c with env := c.env.setResults abs (c.env.results abs ++ [word]) }

def bindParams (abs : Abs) (words : List Word) : Config Fn Word Mem :=
  { c with env := c.env.setParams abs words }

def merge (label : Label) (words : List Word) : Config Fn Word Mem :=
  { c with world := c.world.record (.marked label words) }

end Config

def runEffect (abs : Abs) (kind : Effect Fn) (operands : Operands Op) (c : Config Fn Word Mem) :
    Option (Config Fn Word Mem) :=
  (operands.eval m c.env).map fun words =>
    let after := c.world.perform m kind words
    Config.push { c with world := after.1 } abs after.2

def runInstr (abs : Abs) : Instr Op Fn → Config Fn Word Mem → Option (Config Fn Word Mem)
  | .load ptr, c => (ptr.eval m c.env).map fun address => c.push abs (m.fetch c.world.mem address)
  | instr, c => instr.effect.bind fun e => runEffect m abs e.1 e.2.1 c

variable [DecidableEq Word] [DecidableEq Op]

def check (strict : Bool) (holds : Bool) : Option Unit :=
  if strict && !holds then none else some ()

def runInstrs (strict : Bool) (abs : Abs) :
    List (Value Op) → List (Instr Op Fn) → Config Fn Word Mem → Option (Config Fn Word Mem)
  | _, [], c => some c
  | earlier, instr :: rest, c =>
      (check strict (steadyAt m heldAlways c.env c.world.mem abs earlier
        instr.operands.toList instr.operands.toList)).bind fun _ =>
      (runInstr m abs instr c).bind fun c =>
        runInstrs strict abs (earlier ++ instr.operands.toList) rest c

/-- A construct goes on in its tail after a selection of one of its own bodies. -/
def afterSelection (tail : Config Fn Word Mem → Option (Outcome Word × Config Fn Word Mem))
    (abs : Abs) : Outcome Word × Config Fn Word Mem → Option (Outcome Word × Config Fn Word Mem)
  | (.selection words, c) => tail (c.bindParams (2 :: abs) words)
  | other => some other

/-- One turn of a loop: the parameters are bound, and the outcome decides how to go on. A
    selection around the loop can be merged from inside of it, which leaves the loop; a strict
    run stops there, since no statement of the text would leave it. -/
def loopTurn (strict : Bool) (body : Config Fn Word Mem → Option (Outcome Word × Config Fn Word Mem)) (abs : Abs)
    (turn : List Word × Config Fn Word Mem) :
    Option ((List Word × Config Fn Word Mem) ⊕ (Outcome Word × Config Fn Word Mem)) :=
  (body (turn.2.bindParams (0 :: abs) turn.1)).bind fun
    | (.loopContinue words, c) => some (.inl (words, c))
    | (.loopBreak words, c) => some (.inr (.loopBreak words, c))
    | (.returned words, c) => some (.inr (.returned words, c))
    | (.selection words, c) => (check strict false).map fun _ => .inr (.selection words, c)

def afterLoop (tail : Config Fn Word Mem → Option (Outcome Word × Config Fn Word Mem))
    (abs : Abs) : Outcome Word × Config Fn Word Mem → Option (Outcome Word × Config Fn Word Mem)
  | (.loopBreak words, c) => tail (c.bindParams (2 :: abs) words)
  | other => some other

mutual
/-- `head` is the body of the innermost loop around the abstraction. -/
def Body.run (strict : Bool) (fuel : Nat) (head abs : Abs) :
    Body Op Fn → Config Fn Word Mem → Option (Outcome Word × Config Fn Word Mem)
  | .mk instrs terminator, c =>
      (runInstrs m strict abs [] instrs (c.enter abs)).bind fun c =>
      (check strict (terminator.steady m c.env c.world.mem head abs (chainValues instrs))).bind fun _ =>
        terminator.run strict fuel head abs c
def Terminator.run (strict : Bool) (fuel : Nat) (head abs : Abs) :
    Terminator Op Fn → Config Fn Word Mem → Option (Outcome Word × Config Fn Word Mem)
  | .ret args, c => (args.eval m c.env).map fun words => (.returned words, c)
  | .unreachable, _ => none
  | .ifThen _ condition ifTrue ifFalse tail, c =>
      (condition.eval m c.env).bind fun word =>
      (if m.truthy word then ifTrue.run strict fuel head (0 :: abs) c
        else ifFalse.run strict fuel head (1 :: abs) c).bind
      (afterSelection (tail.run strict fuel head (2 :: abs)) abs)
  | .matchOn _ inspect cases defaultCase tail, c =>
      (inspect.eval m c.env).bind fun word =>
      (cases.run strict fuel head abs word 3
        (defaultCase.run strict fuel head (0 :: abs)) c).bind
      (afterSelection (tail.run strict fuel head (2 :: abs)) abs)
  | .loop initialArgs _ body tail, c =>
      (initialArgs.eval m c.env).bind fun words =>
      (loopWhile (loopTurn strict (body.run strict fuel (0 :: abs) (0 :: abs)) abs) fuel (words, c)).bind
      (afterLoop (tail.run strict fuel head (2 :: abs)) abs)
  | .mergeSelection args, c =>
      (args.eval m c.env).map fun words => (.selection words, c.merge .selection words)
  | .mergeContinue args, c =>
      (args.eval m c.env).map fun words => (.loopContinue words, c.merge .loopContinue words)
  | .mergeBreak args, c =>
      (args.eval m c.env).map fun words => (.loopBreak words, c.merge .loopBreak words)
def Alternative.run (strict : Bool) (fuel : Nat) (head abs : Abs) :
    Alternative Op Fn → Config Fn Word Mem → Option (Outcome Word × Config Fn Word Mem)
  | .absent, c => some (.selection [], c)
  | .present body, c => body.run strict fuel head abs c
/-- The first case whose literal is the inspected word, else the default case. -/
def Cases.run (strict : Bool) (fuel : Nat) (head abs : Abs) (word : Word) (step : Nat)
    (defaultCase : Config Fn Word Mem → Option (Outcome Word × Config Fn Word Mem)) :
    Cases Op Fn → Config Fn Word Mem → Option (Outcome Word × Config Fn Word Mem)
  | .nil, c => defaultCase c
  | .cons literal body rest, c =>
      if word = m.literal literal then body.run strict fuel head (step :: abs) c
      else rest.run strict fuel head abs word (step + 1) defaultCase c
end

def Function.start (args : List Word) (mem : Mem) : Config Fn Word Mem where
  env := { params := Function.update (fun _ => []) [] args, results := fun _ => [] }
  world := ⟨mem, []⟩

/-- The words a call of the function returns, and the world it leaves. -/
def Function.run (strict : Bool) (fuel : Nat) (f : Function Op Fn) (args : List Word) (mem : Mem) :
    Option (List Word × World (Effect Fn) Label Word Mem) :=
  if args.length = f.params then
    (f.body.run m strict fuel [] [] (Function.start args mem)).bind fun
      | (.returned words, c) => some (words, c.world)
      | _ => none
  else none

end Semantics

end Shady.Backend
