import Mathlib.Logic.Relation
import Shady.Frontend.Bind

/-!
# Lexical scoping

What every occurrence of a name in a module is declared as: a declaration holds for what follows it
in its block and in the blocks inside, where it shadows what the name meant before, and the
declarations of the module hold everywhere. Nothing is remembered from one place to another, and the
`i`-th variable of a declaration starts as the `i`-th result.
-/

set_option autoImplicit false

namespace Shady.Bind

open Scoping

/-- What the declarations of a module stand for. -/
def Module.topScope (m : Module) : Scope Name Resolved := fun name => do
  let i ← m.findIdx? (·.name == name)
  let decl ← m[i]?
  return resolvedDecl decl i

/-! ## Expressions -/

/-- Only a place has an address: a variable, what a pointer points to, an element of a place. -/
def isPlace (scope : Scope Name Resolved) : Expr → Bool
  | .unbound _ name => (scope name).any Resolved.isVar
  | .dereference _ => true
  | .subscript base _ => isPlace scope base
  | _ => false

mutual
def scopedValue (scope : Scope Name Resolved) : Expr → Option BoundExpr
  | .leaf text => some (.leaf text)
  | .param site i => some (.param site i)
  | .unbound hasMem name => do return .value hasMem name (← scope name)
  | .dereference ptr => do return .load (← scopedValue scope ptr)
  | .addrOf place => scopedAddress scope place
  | .assign target value => do
      let ptr ← scopedAddress scope target
      return .store ptr (← scopedValue scope value)
  | .subscript base index =>
      if isPlace scope base then do
        let ptr ← scopedAddress scope base
        return .load (.element ptr (← scopedValue scope index))
      else do
        let base ← scopedValue scope base
        return .extract base (← scopedValue scope index)
  | .node _ tag operands => do return .node tag (← scopedValues scope operands)

def scopedAddress (scope : Scope Name Resolved) : Expr → Option BoundExpr
  | .unbound _ name => do
      let resolved ← scope name
      if resolved.isVar then return .address name resolved else none
  | .dereference ptr => scopedValue scope ptr
  | .subscript base index => do
      let ptr ← scopedAddress scope base
      return .element ptr (← scopedValue scope index)
  | _ => none

def scopedValues (scope : Scope Name Resolved) : List Expr → Option (List BoundExpr)
  | [] => some []
  | e :: rest => do
      let e ← scopedValue scope e
      return e :: (← scopedValues scope rest)
end

mutual
/-- An expression whose value is not used is left out, up to its effects. -/
def scopedDiscarded (scope : Scope Name Resolved) : Expr → Option (List BoundExpr)
  | .leaf _ => some []
  | .param _ _ => some []
  | .unbound _ _ => some []
  | .dereference ptr => do return [← scopedValue scope ptr]
  | .addrOf place => do return [← scopedValue scope (.addrOf place)]
  | .assign target value => do return [← scopedValue scope (.assign target value)]
  | .subscript base index => do return [← scopedValue scope (.subscript base index)]
  | .node true tag operands => do return [← scopedValue scope (.node true tag operands)]
  | .node false _ operands => scopedDiscardedAll scope operands

def scopedDiscardedAll (scope : Scope Name Resolved) : List Expr → Option (List BoundExpr)
  | [] => some []
  | e :: rest => do
      let e ← scopedDiscarded scope e
      return e ++ (← scopedDiscardedAll scope rest)
end

/-! ## Bodies -/

def scopedParams (scope : Scope Name Resolved) (params : List Param) : Option (List BoundExpr) :=
  scopedValues scope (params.map Param.type)

/-- The variables of a declaration, from variable `i` on, and the scope after them. -/
def scopedVariables (site : Nat) : Scope Name Resolved → Nat → List (Name × Expr) →
    Option (List Slot × Scope Name Resolved)
  | scope, _, [] => some ([], scope)
  | scope, i, (name, type) :: rest => do
      let type ← scopedValue scope type
      let (slots, inner) ← scopedVariables site (scope.declare name ⟨true, .slot site i⟩) (i + 1) rest
      return (⟨name, type, i⟩ :: slots, inner)

/-- The continuations of a body see each other; the types of the parameters of one, those before. -/
def scopedContinuationNames : Scope Name Resolved → List Block →
    Option (List (List BoundExpr) × Scope Name Resolved)
  | scope, [] => some ([], scope)
  | scope, block :: rest => do
      let types ← scopedParams scope block.params
      let name ← block.name
      let (types', inner) ←
        scopedContinuationNames (scope.declare name ⟨false, .basicBlock block.site⟩) rest
      return (types :: types', inner)

mutual
def scopedBody (scope : Scope Name Resolved) : Body → Option BoundBody
  | .eval e rest => do
      let effects ← scopedDiscarded scope e
      return .eval effects (← scopedBody scope rest)
  | .bindVal site value names rest => do
      let value ← scopedValue scope value
      return .values site value (← scopedBody (scope.declareAll (valBindings site names)) rest)
  | .bindVar site value names types rest => do
      let value ← scopedValue scope value
      let (slots, inner) ← scopedVariables site scope 0 (names.zip types)
      return .variables site value slots (← scopedBody inner rest)
  | .construct tag operands blocks tail => do
      let operands ← scopedValues scope operands
      let blocks ← scopedBlocks scope blocks
      return .construct tag operands blocks (← scopedBlock scope tail)
  | .finish continuations terminator => do
      let (types, inner) ← scopedContinuationNames scope continuations
      let continuations ← scopedContinuations inner types continuations
      return .finish continuations (← scopedValue inner terminator)

def scopedBlock (scope : Scope Name Resolved) : Block → Option BoundBlock
  | .mk site name params body => do
      let types ← scopedParams scope params
      return .mk site types
        (← scopedBody (scope.declareAll (blockBindings (.mk site name params body))) body)

def scopedBlocks (scope : Scope Name Resolved) : List Block → Option (List BoundBlock)
  | [] => some []
  | block :: rest => do
      let block ← scopedBlock scope block
      return block :: (← scopedBlocks scope rest)

def scopedContinuations (scope : Scope Name Resolved) :
    List (List BoundExpr) → List Block → Option (List BoundBlock)
  | types :: types', .mk site _ params body :: rest => do
      let body ← scopedBody (scope.declareAll (paramBindings site params)) body
      return .mk site types body :: (← scopedContinuations scope types' rest)
  | _, _ => some []
end

/-! ## Declarations -/

def scopedContent (scope : Scope Name Resolved) : DeclKind → Option BoundContent
  | .globalVariable _ none => some (.value none)
  | .globalVariable _ (some init) => do return .value (some (← scopedValue scope init))
  | .constant _ value => do return .value (some (← scopedValue scope value))
  | .nominalType body => do return .value (some (← scopedValue scope body))
  | .function _ _ _ none => some (.body none)
  | .function site params _ (some body) => do
      return .body (some (← scopedBody (scope.declareAll (paramBindings site params)) body))

/-- A declaration as lexical scoping reads it, if it gives every name a meaning. -/
def Module.scoped (m : Module) (i : Nat) : Option BoundDecl := do
  let decl ← m[i]?
  let signature ← scopedValues m.topScope decl.signature
  return ⟨signature, ← scopedContent m.topScope decl.kind⟩

/-! ## What a reading says -/

/-- A name without a `mem` is one in a type, an annotation or a constant. -/
structure Occurrence where
  hasMem : Bool
  name : Name
  resolved : Resolved

mutual
def BoundExpr.occurrences : BoundExpr → List Occurrence
  | .leaf _ => []
  | .param _ _ => []
  | .value hasMem name resolved => [⟨hasMem, name, resolved⟩]
  | .address name resolved => [⟨true, name, resolved⟩]
  | .load ptr => ptr.occurrences
  | .store ptr value => ptr.occurrences ++ value.occurrences
  | .element ptr index => ptr.occurrences ++ index.occurrences
  | .extract base index => base.occurrences ++ index.occurrences
  | .node _ operands => occurrencesAll operands

def occurrencesAll : List BoundExpr → List Occurrence
  | [] => []
  | e :: rest => e.occurrences ++ occurrencesAll rest
end

def slotOccurrences (slots : List Slot) : List Occurrence :=
  slots.flatMap fun slot => slot.type.occurrences

mutual
def BoundBody.occurrences : BoundBody → List Occurrence
  | .eval effects rest => occurrencesAll effects ++ rest.occurrences
  | .values _ value rest => value.occurrences ++ rest.occurrences
  | .variables _ value slots rest => value.occurrences ++ slotOccurrences slots ++ rest.occurrences
  | .construct _ operands blocks tail =>
      occurrencesAll operands ++ blockOccurrences blocks ++ tail.occurrences
  | .finish continuations terminator => blockOccurrences continuations ++ terminator.occurrences

def BoundBlock.occurrences : BoundBlock → List Occurrence
  | .mk _ paramTypes body => occurrencesAll paramTypes ++ body.occurrences

def blockOccurrences : List BoundBlock → List Occurrence
  | [] => []
  | block :: rest => block.occurrences ++ blockOccurrences rest
end

mutual
/-- The results that the variables of a body are stored. -/
def BoundBody.stored : BoundBody → List Nat
  | .eval _ rest => rest.stored
  | .values _ _ rest => rest.stored
  | .variables _ _ slots rest => slots.map Slot.stored ++ rest.stored
  | .construct _ _ blocks tail => blockStored blocks ++ tail.stored
  | .finish continuations _ => blockStored continuations

def BoundBlock.stored : BoundBlock → List Nat
  | .mk _ _ body => body.stored

def blockStored : List BoundBlock → List Nat
  | [] => []
  | block :: rest => block.stored ++ blockStored rest
end

def BoundContent.occurrences : BoundContent → List Occurrence
  | .value v => v.elim [] BoundExpr.occurrences
  | .body b => b.elim [] BoundBody.occurrences

def BoundContent.stored : BoundContent → List Nat
  | .value _ => []
  | .body b => b.elim [] BoundBody.stored

def BoundDecl.occurrences (decl : BoundDecl) : List Occurrence :=
  occurrencesAll decl.signature ++ decl.content.occurrences

/-! ## Modules -/

def Module.References (m : Module) (i j : Nat) : Prop :=
  ∃ decl, m.scoped i = some decl ∧ ∃ o ∈ decl.occurrences, o.resolved.node = .declaration j

def Module.SignatureReferences (m : Module) (i j : Nat) : Prop :=
  ∃ decl, m.scoped i = some decl ∧
    ∃ o ∈ occurrencesAll decl.signature, o.resolved.node = .declaration j

/-- The declarations that a module is exported for, and those that they refer to. -/
def Module.Needed (m : Module) (j : Nat) : Prop :=
  ∃ i ∈ m.exported, Relation.ReflTransGen m.References i j

/-- A module that has a meaning under lexical scoping. -/
structure Module.Valid (m : Module) : Prop where
  /-- No two declarations have the same name. -/
  unique : (m.map Decl.name).Nodup
  /-- Every name is declared, and only places are assigned. -/
  reads : ∀ i, m.Needed i → (m.scoped i).isSome

/-- The types and annotations of a declaration do not lead back to it. -/
def Module.Founded (m : Module) : Prop :=
  ∀ i j, m.Needed i → m.SignatureReferences i j → ¬ Relation.ReflTransGen m.References j i

/-- The pass implements lexical scoping: what is needed is declared in the new module, and what is
declared there is read as lexical scoping says. -/
def BindsLexically (m : Module) : Prop :=
  ∃ st, slimPassBind m = .ok st ∧ (∀ i, m.Needed i → ∃ decl, (i, decl) ∈ st.defined) ∧
    ∀ i decl, (i, decl) ∈ st.defined → m.scoped i = some decl

/-- No declaration of variables stores a result but the first. -/
def Module.SingleVariables (m : Module) : Prop :=
  ∀ i decl, m.Needed i → m.scoped i = some decl → ∀ k ∈ decl.content.stored, k = 0

/-- A name in types, annotations and constants stands for the same everywhere. -/
def Module.SteadyTypeNames (m : Module) : Prop :=
  ∀ i decl, m.Needed i → m.scoped i = some decl → ∀ i' decl', m.Needed i' → m.scoped i' = some decl' →
    ∀ o ∈ decl.occurrences, o.hasMem = false → ∀ o' ∈ decl'.occurrences, o'.hasMem = false →
      o.name = o'.name → o.resolved = o'.resolved

end Shady.Bind
