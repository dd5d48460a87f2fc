import Shady.Backend.Structured

/-!
# Emission of structured functions as C

A value is emitted where it is first asked for: its text is registered, and a primop is
bound to a variable in the printer of the abstraction it is scheduled to. The text of a
load is an access to memory, which is spelled again at each use. Constructs are printed
once their bodies are, and the variables a merge assigns to stand for the parameters of
the loop body, or of the tail.
-/

set_option autoImplicit false

namespace Shady.Backend

open Imperative

/-- The variables that the innermost constructs are left through. -/
structure Phis where
  selection : List Nat
  loopContinue : List Nat
  loopBreak : List Nat

abbrev CStmt (Op Fn : Type) : Type := Stmt Op (Effect Fn) Label

structure FnEmitter (Op Fn : Type) where
  emittedTerms : Value Op → Option (Expr Op)
  instructionPrinters : Abs → Option (List (CStmt Op Fn))
  /-- The next unused name. -/
  uniqueName : Nat

namespace FnEmitter
variable {Op Fn : Type} [DecidableEq Op] (fn : FnEmitter Op Fn)

def registerEmitted (v : Value Op) (term : Expr Op) : FnEmitter Op Fn :=
  { fn with emittedTerms := Function.update fn.emittedTerms v (some term) }

/-- The parameters of an abstraction, the `i`-th of them first, are spelled as these variables. -/
def registerParams (abs : Abs) : Nat → List Nat → FnEmitter Op Fn → FnEmitter Op Fn
  | _, [], fn => fn
  | i, x :: xs, fn => registerParams abs (i + 1) xs (fn.registerEmitted (.param abs i) (.var x))

omit [DecidableEq Op] in
/-- There is no printer for an abstraction that is not being emitted. -/
def print (abs : Abs) (text : CStmt Op Fn) : Option (FnEmitter Op Fn) :=
  (fn.instructionPrinters abs).map fun printed =>
    { fn with instructionPrinters :=
        Function.update fn.instructionPrinters abs (some (printed ++ [text])) }

def makeUniqueName : Nat × FnEmitter Op Fn :=
  (fn.uniqueName, { fn with uniqueName := fn.uniqueName + 1 })

def openPrinter (abs : Abs) : FnEmitter Op Fn :=
  { fn with instructionPrinters :=
      Function.update fn.instructionPrinters abs (some [.mark (.body abs) []]) }

def closePrinter (abs : Abs) : Option (CStmt Op Fn × FnEmitter Op Fn) :=
  (fn.instructionPrinters abs).map fun printed =>
    (Stmt.block printed,
      { fn with instructionPrinters := Function.update fn.instructionPrinters abs none })

def bindIntermediaryResult (abs : Abs) (v : Value Op) (term : Expr Op) :
    Option (Expr Op × FnEmitter Op Fn) :=
  let named := fn.makeUniqueName
  (named.2.print abs (.declare named.1 (some term))).map fun fn =>
    (.var named.1, fn.registerEmitted v (.var named.1))

/-- What was emitted before is not emitted again. -/
def foundOr (v : Value Op) (emit : Option (Expr Op × FnEmitter Op Fn)) :
    Option (Expr Op × FnEmitter Op Fn) :=
  match fn.emittedTerms v with
  | some found => some (found, fn)
  | none => emit

end FnEmitter

section Emission
variable {Op Fn : Type} [DecidableEq Op]

mutual
def emitValue : Value Op → FnEmitter Op Fn → Option (Expr Op × FnEmitter Op Fn)
  -- a parameter is registered by its abstraction, an instruction by the chain it is in
  | .param abs i, fn => fn.foundOr (.param abs i) none
  | .load abs k ptr, fn => fn.foundOr (.load abs k ptr) none
  | .result abs k, fn => fn.foundOr (.result abs k) none
  | .literal n, fn =>
      fn.foundOr (.literal n) (some (.literal n, fn.registerEmitted (.literal n) (.literal n)))
  | .primOp op operands, fn =>
      fn.foundOr (.primOp op operands) <|
        (emitOperands operands fn).bind fun emitted =>
          emitted.2.bindIntermediaryResult (Value.primOp op operands).home (.primOp op operands)
            (.apply op emitted.1)
  | .inlined op operands, fn =>
      fn.foundOr (.inlined op operands) <|
        (emitOperands operands fn).map fun emitted =>
          (.apply op emitted.1,
            emitted.2.registerEmitted (.inlined op operands) (.apply op emitted.1))
def emitOperands : Operands Op → FnEmitter Op Fn → Option (Exprs Op × FnEmitter Op Fn)
  | .nil, fn => some (.nil, fn)
  | .cons head tail, fn =>
      (emitValue head fn).bind fun first =>
        (emitOperands tail first.2).map fun rest => (.cons first.1 rest.1, rest.2)
end

/-- The `k`-th instruction of the chain, one that is printed as a statement. -/
def emitEffect (abs : Abs) (k : Nat) (kind : Effect Fn) (operands : Operands Op) (returns : Bool)
    (fn : FnEmitter Op Fn) : Option (FnEmitter Op Fn) :=
  (emitOperands operands fn).bind fun emitted =>
    if returns then
      let named := emitted.2.makeUniqueName
      (named.2.print abs (.effect kind emitted.1 (some named.1))).map fun fn =>
        fn.registerEmitted (.result abs k) (.var named.1)
    else emitted.2.print abs (.effect kind emitted.1 none)

def emitInstruction (abs : Abs) (k : Nat) :
    Instr Op Fn → FnEmitter Op Fn → Option (FnEmitter Op Fn)
  | .load ptr, fn =>
      (emitValue ptr fn).map fun emitted =>
        emitted.2.registerEmitted (.load abs k ptr) (.deref emitted.1)
  | instr, fn => instr.effect.bind fun e => emitEffect abs k e.1 e.2.1 e.2.2 fn

/-- The chain of memory operations, from the one that is first executed on. -/
def emitMem (abs : Abs) : Nat → List (Instr Op Fn) → FnEmitter Op Fn → Option (FnEmitter Op Fn)
  | _, [], fn => some fn
  | k, instr :: rest, fn => (emitInstruction abs k instr fn).bind (emitMem abs (k + 1) rest)

omit [DecidableEq Op] in
/-- Variables without an initial value. -/
def declarePhis (abs : Abs) : Nat → FnEmitter Op Fn → Option (List Nat × FnEmitter Op Fn)
  | 0, fn => some ([], fn)
  | count + 1, fn =>
      let named := fn.makeUniqueName
      (named.2.print abs (.declare named.1 none)).bind fun fn =>
        (declarePhis abs count fn).map fun rest => (named.1 :: rest.1, rest.2)

/-- Variables with these initial values. -/
def declareInitialised (abs : Abs) :
    Operands Op → FnEmitter Op Fn → Option (List Nat × FnEmitter Op Fn)
  | .nil, fn => some ([], fn)
  | .cons head tail, fn =>
      let named := fn.makeUniqueName
      (emitValue head named.2).bind fun emitted =>
      (emitted.2.print abs (.declare named.1 (some emitted.1))).bind fun fn =>
        (declareInitialised abs tail fn).map fun rest => (named.1 :: rest.1, rest.2)

/-- The assignments of a merge, one after the other; the counts have to agree. -/
def emitTransfer (abs : Abs) : List Nat → Operands Op → FnEmitter Op Fn → Option (FnEmitter Op Fn)
  | [], .nil, fn => some fn
  | x :: xs, .cons head tail, fn =>
      (emitValue head fn).bind fun emitted =>
      (emitted.2.print abs (.assign x emitted.1)).bind (emitTransfer abs xs tail)
  | _, _, _ => none

/-- The chain of `if` and `else if` that a Match is printed as. -/
def matchChain (inspectee : Expr Op) (otherwise : CStmt Op Fn) :
    List (Expr Op × CStmt Op Fn) → CStmt Op Fn
  | [] => otherwise
  | (literal, body) :: rest =>
      .ifElse (.equal inspectee literal) body (matchChain inspectee otherwise rest)

def printMatch (inspectee : Expr Op) (cases : List (Expr Op × CStmt Op Fn))
    (defaultCase : CStmt Op Fn) : CStmt Op Fn :=
  match cases with
  | [] => .danglingElse defaultCase
  | cases => matchChain inspectee defaultCase cases

mutual
def emitBody (phis : Phis) (abs : Abs) :
    Body Op Fn → FnEmitter Op Fn → Option (CStmt Op Fn × FnEmitter Op Fn)
  | .mk instrs terminator, fn =>
      (emitMem abs 0 instrs (fn.openPrinter abs)).bind fun fn =>
      (emitTerminator phis abs terminator fn).bind fun fn => fn.closePrinter abs
def emitTerminator (phis : Phis) (abs : Abs) :
    Terminator Op Fn → FnEmitter Op Fn → Option (FnEmitter Op Fn)
  | .ret args, fn =>
      (emitOperands args fn).bind fun emitted => emitted.2.print abs (.ret emitted.1)
  | .unreachable, fn => fn.print abs .unreachable
  | .ifThen yields condition ifTrue ifFalse tail, fn =>
      (declarePhis abs yields fn).bind fun declared =>
      (emitBody { phis with selection := declared.1 } (0 :: abs) ifTrue declared.2).bind fun trueBody =>
      (emitAlternative { phis with selection := declared.1 } (1 :: abs) ifFalse trueBody.2).bind
        fun falseBody =>
      (emitBody phis (2 :: abs) tail falseBody.2).bind fun tailText =>
      (emitValue condition tailText.2).bind fun condition =>
      (condition.2.print abs (.ifElse (.truth condition.1) trueBody.1 falseBody.1)).bind fun fn =>
        -- only now are the parameters of the tail known, whose text is there already
        (FnEmitter.registerParams (2 :: abs) 0 declared.1 fn).print abs tailText.1
  | .matchOn yields inspect cases defaultCase tail, fn =>
      (declarePhis abs yields fn).bind fun declared =>
      (emitValue inspect declared.2).bind fun inspectee =>
      (emitBody { phis with selection := declared.1 } (0 :: abs) defaultCase inspectee.2).bind
        fun defaultBody =>
      (emitBody phis (2 :: abs) tail defaultBody.2).bind fun tailText =>
      (emitCases { phis with selection := declared.1 } abs 3 cases tailText.2).bind fun bodies =>
      (bodies.2.print abs (printMatch inspectee.1 bodies.1 defaultBody.1)).bind fun fn =>
        (FnEmitter.registerParams (2 :: abs) 0 declared.1 fn).print abs tailText.1
  | .loop initialArgs yields body tail, fn =>
      (declareInitialised abs initialArgs fn).bind fun params =>
      (declarePhis abs yields (FnEmitter.registerParams (0 :: abs) 0 params.1 params.2)).bind
        fun declared =>
      (emitBody { phis with loopContinue := params.1, loopBreak := declared.1 } (0 :: abs) body
        declared.2).bind fun bodyText =>
      (emitBody phis (2 :: abs) tail bodyText.2).bind fun tailText =>
      (tailText.2.print abs (.whileTrue bodyText.1)).bind fun fn =>
        (FnEmitter.registerParams (2 :: abs) 0 declared.1 fn).print abs tailText.1
  | .mergeSelection args, fn =>
      (emitTransfer abs phis.selection args fn).bind fun fn =>
        fn.print abs (.mark .selection phis.selection)
  | .mergeContinue args, fn =>
      (emitTransfer abs phis.loopContinue args fn).bind fun fn =>
      (fn.print abs (.mark .loopContinue phis.loopContinue)).bind fun fn =>
        fn.print abs .continue
  | .mergeBreak args, fn =>
      (emitTransfer abs phis.loopBreak args fn).bind fun fn =>
      (fn.print abs (.mark .loopBreak phis.loopBreak)).bind fun fn =>
        fn.print abs .break
def emitAlternative (phis : Phis) (abs : Abs) :
    Alternative Op Fn → FnEmitter Op Fn → Option (CStmt Op Fn × FnEmitter Op Fn)
  | .absent, fn => some (.skip, fn)
  | .present body, fn => emitBody phis abs body fn
def emitCases (phis : Phis) (abs : Abs) (step : Nat) :
    Cases Op Fn → FnEmitter Op Fn → Option (List (Expr Op × CStmt Op Fn) × FnEmitter Op Fn)
  | .nil, fn => some ([], fn)
  | .cons literal body rest, fn =>
      (emitValue (.literal literal) fn).bind fun literal =>
      (emitBody phis (step :: abs) body literal.2).bind fun text =>
      (emitCases phis abs (step + 1) rest text.2).map fun bodies =>
        ((literal.1, text.1) :: bodies.1, bodies.2)
end

/-- The parameters of a function are its first variables. -/
def FnEmitter.start (params : Nat) : FnEmitter Op Fn :=
  FnEmitter.registerParams [] 0 (List.range params)
    ⟨fun _ => none, fun _ => none, params⟩

def emitFunction (f : Function Op Fn) : Option (CStmt Op Fn) :=
  (emitBody ⟨[], [], []⟩ [] f.body (FnEmitter.start f.params)).map Prod.fst

end Emission

/-! ## Running the program -/

section Running
variable {Op Fn Word Mem : Type} [DecidableEq Word] (m : Machine Op (Effect Fn) Word Mem)

def callProgram (fuel : Nat) (text : CStmt Op Fn) (args : List Word) (mem : Mem) :
    Option (List Word × World (Effect Fn) Label Word Mem) :=
  (text.exec m fuel ⟨fun x => args[x]?.map some, ⟨mem, []⟩⟩).bind fun
    | (.returned words, st) => some (words, st.world)
    | _ => none

end Running

end Shady.Backend
