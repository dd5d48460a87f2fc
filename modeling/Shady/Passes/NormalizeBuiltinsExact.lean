import Shady.Passes.NormalizeBuiltins

/-!
# Loads of normalised builtins

No cast is ever asked for, since a declaration has the expected type once it has been rewritten. A
load keeps its type if and only if its chain of elements reaches the same type in the declared
type and in the type of the builtin.
-/

set_option autoImplicit false

namespace Shady.NormalizeBuiltins

open Fallible

/-! ## Invariant of the rewriter -/

def GlobalVariable.builtin? (globalVariable : GlobalVariable) : Option Builtin :=
  globalVariable.builtin.bind getBuiltinByName

def GlobalVariable.expectedType (globalVariable : GlobalVariable) : IrType :=
  globalVariable.builtin?.elim globalVariable.type Builtin.type

theorem expectedTypes_eq {module : Module} {decl : Nat} {globalVariable : GlobalVariable}
    (there : module[decl]? = some globalVariable) :
    expectedTypes module decl = .ok globalVariable.expectedType := by
  rw [expectedTypes, there]
  rfl

structure Normal (module : Module) (s : State) : Prop where
  builtins : ∀ b ndecl, s.builtins b = some ndecl → ∃ new, s.decls[ndecl]? = some new ∧
    new.type = b.type ∧ new.addressSpace = b.addressSpace
  unique : ∀ b ndecl new, s.decls[ndecl]? = some new → new.builtin? = some b →
    s.builtins b = some ndecl
  processed : ∀ decl ndecl, s.processed decl = some ndecl → ∃ globalVariable new,
    module[decl]? = some globalVariable ∧ s.decls[ndecl]? = some new ∧
      new.builtin = globalVariable.builtin ∧ new.type = globalVariable.expectedType

theorem Normal.empty (module : Module) : Normal module State.empty where
  builtins _ _ found := nomatch found
  unique _ _ _ there _ := nomatch there
  processed _ _ found := nomatch found

/-- The globals of builtins stay what they are. -/
def State.Grows (s s' : State) : Prop := ∀ b ndecl, s.builtins b = some ndecl → s'.builtins b = some ndecl

theorem State.Grows.refl (s : State) : s.Grows s := fun _ _ found => found

theorem State.Grows.trans {s s' s'' : State} (first : s.Grows s') (second : s'.Grows s'') :
    s.Grows s'' := fun b ndecl found => second b ndecl (first b ndecl found)

/-- A promise of the module about one of its declarations. -/
def Promised (globalVariable : GlobalVariable) : Prop :=
  ∀ annotation, globalVariable.builtin = some annotation →
    (getBuiltinByName annotation).isSome ∧ globalVariable.hasInit = false

/-- What becomes of a declaration. -/
structure Rewritten (module : Module) (globalVariable : GlobalVariable) (s : State) (ndecl : Nat)
    (s' : State) : Prop where
  normal : Normal module s'
  grows : s.Grows s'
  type : s'.decls.declared ndecl = .ok globalVariable.expectedType
  builtin : ∀ b, globalVariable.builtin? = some b → s'.builtins b = some ndecl

section Declarations
variable {module : Module} {s : State}

theorem declared_eq {decls : Module} {ndecl : Nat} {new : GlobalVariable}
    (there : decls[ndecl]? = some new) : decls.declared ndecl = .ok new.type := by
  rw [Module.declared, there]

/-- Earlier declarations stay, and the new one is the last. -/
theorem getElem?_declare {decls : Module} {new old : GlobalVariable} {ndecl : Nat} :
    (decls ++ [new])[ndecl]? = some old ↔
      decls[ndecl]? = some old ∨ ndecl = decls.length ∧ new = old := by
  rw [List.getElem?_append]
  split
  · rename_i before
    constructor
    · exact Or.inl
    · intro found
      cases found with
      | inl found => exact found
      | inr last => omega
  · rename_i after
    rw [List.getElem?_eq_none (Nat.le_of_not_lt after), List.getElem?_singleton]
    simp only [reduceCtorEq, false_or]
    constructor
    · intro found
      split at found
      · exact ⟨by omega, Option.some.inj found⟩
      · exact nomatch found
    · rintro ⟨rfl, rfl⟩
      simp

theorem Normal.declare_builtin (normal : Normal module s) {decl : Nat}
    {globalVariable : GlobalVariable} (there : module[decl]? = some globalVariable) {b : Builtin}
    (isBuiltin : globalVariable.builtin? = some b) (fresh : s.builtins b = none) :
    Rewritten module globalVariable s s.decls.length
      { s.declare decl { globalVariable with type := b.type, addressSpace := b.addressSpace } with
        builtins := Function.update s.builtins b (some s.decls.length) } := by
  have expected : globalVariable.expectedType = b.type := by
    rw [GlobalVariable.expectedType, isBuiltin]
    rfl
  refine ⟨⟨?_, ?_, ?_⟩, ?_, ?_, ?_⟩
  · intro b' ndecl found
    change Function.update s.builtins b (some s.decls.length) b' = some ndecl at found
    by_cases same : b' = b
    · subst same
      rw [Function.update_self] at found
      cases found
      exact ⟨_, getElem?_declare.mpr (Or.inr ⟨rfl, rfl⟩), rfl, rfl⟩
    · rw [Function.update_of_ne same] at found
      obtain ⟨new, old, type, space⟩ := normal.builtins b' ndecl found
      exact ⟨new, getElem?_declare.mpr (Or.inl old), type, space⟩
  · intro b' ndecl new found named
    cases getElem?_declare.mp found with
    | inl old =>
        have known := normal.unique b' ndecl new old named
        have other : b' ≠ b := by
          intro same
          rw [same, fresh] at known
          exact nomatch known
        exact (Function.update_of_ne other _ _).trans known
    | inr last =>
        obtain ⟨rfl, rfl⟩ := last
        cases isBuiltin.symm.trans named
        exact Function.update_self _ _ _
  · intro decl' ndecl found
    by_cases same : decl' = decl
    · subst same
      simp only [State.declare, Function.update_self, Option.some.injEq] at found
      subst found
      exact ⟨globalVariable, _, there, getElem?_declare.mpr (Or.inr ⟨rfl, rfl⟩), rfl, expected.symm⟩
    · simp only [State.declare, Function.update_of_ne same] at found
      obtain ⟨old, new, there', old', facts⟩ := normal.processed decl' ndecl found
      exact ⟨old, new, there', getElem?_declare.mpr (Or.inl old'), facts⟩
  · intro b' ndecl found
    have other : b' ≠ b := by
      intro same
      rw [same, fresh] at found
      exact nomatch found
    exact (Function.update_of_ne other _ _).trans found
  · rw [expected]
    exact declared_eq (getElem?_declare.mpr (Or.inr ⟨rfl, rfl⟩))
  · intro b' named
    cases isBuiltin.symm.trans named
    exact Function.update_self _ _ _

theorem Normal.declare_other (normal : Normal module s) {decl : Nat}
    {globalVariable : GlobalVariable} (there : module[decl]? = some globalVariable)
    (other : globalVariable.builtin = none) :
    Rewritten module globalVariable s s.decls.length (s.declare decl globalVariable) := by
  have noBuiltin : globalVariable.builtin? = none := by
    rw [GlobalVariable.builtin?, other, Option.bind_none]
  have expected : globalVariable.expectedType = globalVariable.type := by
    rw [GlobalVariable.expectedType, noBuiltin]
    rfl
  refine ⟨⟨?_, ?_, ?_⟩, fun _ _ found => found, ?_, ?_⟩
  · intro b ndecl found
    obtain ⟨new, old, type, space⟩ := normal.builtins b ndecl found
    exact ⟨new, getElem?_declare.mpr (Or.inl old), type, space⟩
  · intro b ndecl new found named
    cases getElem?_declare.mp found with
    | inl old => exact normal.unique b ndecl new old named
    | inr last =>
        obtain ⟨rfl, rfl⟩ := last
        exact nomatch noBuiltin.symm.trans named
  · intro decl' ndecl found
    by_cases same : decl' = decl
    · subst same
      simp only [State.declare, Function.update_self, Option.some.injEq] at found
      subst found
      exact ⟨globalVariable, _, there, getElem?_declare.mpr (Or.inr ⟨rfl, rfl⟩), rfl, expected.symm⟩
    · simp only [State.declare, Function.update_of_ne same] at found
      obtain ⟨old, new, there', old', facts⟩ := normal.processed decl' ndecl found
      exact ⟨old, new, there', getElem?_declare.mpr (Or.inl old'), facts⟩
  · rw [expected]
    exact declared_eq (getElem?_declare.mpr (Or.inr ⟨rfl, rfl⟩))
  · exact fun b named => nomatch noBuiltin.symm.trans named

/-- A declaration of a builtin that has its global stands for that global. -/
theorem rewriteDecl_merged (normal : Normal module s) {decl : Nat}
    {globalVariable : GlobalVariable} (there : module[decl]? = some globalVariable) {b : Builtin}
    (isBuiltin : globalVariable.builtin? = some b) {ndecl : Nat} (known : s.builtins b = some ndecl) :
    rewriteDecl module decl s = .ok (ndecl, s) := by
  rw [rewriteDecl]
  cases found : s.processed decl with
  | some ndecl' =>
      obtain ⟨old, new, there', listed, named, _⟩ := normal.processed decl ndecl' found
      cases there.symm.trans there'
      have isSame : new.builtin? = some b := by
        rw [GlobalVariable.builtin?, named]
        exact isBuiltin
      cases (normal.unique b ndecl' new listed isSame).symm.trans known
      rfl
  | none =>
      obtain ⟨entry, named, byName⟩ := Option.bind_eq_some_iff.mp isBuiltin
      simp only [there, processGlobalVariable, named, byName, known]

theorem rewriteDecl_spec (normal : Normal module s) {decl : Nat}
    {globalVariable : GlobalVariable} (there : module[decl]? = some globalVariable)
    (promised : Promised globalVariable) :
    ∃ ndecl s', rewriteDecl module decl s = .ok (ndecl, s') ∧
      Rewritten module globalVariable s ndecl s' := by
  cases isBuiltin : globalVariable.builtin? with
  | some b =>
      have expected : globalVariable.expectedType = b.type := by
        rw [GlobalVariable.expectedType, isBuiltin]
        rfl
      cases known : s.builtins b with
      | some ndecl =>
          obtain ⟨new, listed, type, _⟩ := normal.builtins b ndecl known
          refine ⟨ndecl, s, rewriteDecl_merged normal there isBuiltin known, normal,
            State.Grows.refl s, ?_, ?_⟩
          · rw [expected, ← type]
            exact declared_eq listed
          · intro b' named
            cases isBuiltin.symm.trans named
            exact known
      | none =>
          refine ⟨_, _, ?_, normal.declare_builtin there isBuiltin known⟩
          have unprocessed : s.processed decl = none := by
            by_contra found
            obtain ⟨ndecl, found⟩ := Option.ne_none_iff_exists'.mp found
            obtain ⟨old, new, there', listed, named, _⟩ := normal.processed decl ndecl found
            cases there.symm.trans there'
            have isSame : new.builtin? = some b := by
              rw [GlobalVariable.builtin?, named]
              exact isBuiltin
            exact nomatch known.symm.trans (normal.unique b ndecl new listed isSame)
          obtain ⟨entry, named, byName⟩ := Option.bind_eq_some_iff.mp isBuiltin
          simp only [rewriteDecl, unprocessed, there, processGlobalVariable, named, byName, known,
            (promised entry named).2]
          rfl
  | none =>
      have other : globalVariable.builtin = none := by
        cases named : globalVariable.builtin with
        | none => rfl
        | some annotation =>
            have isSome := (promised annotation named).1
            rw [GlobalVariable.builtin?, named, Option.bind_some] at isBuiltin
            rw [isBuiltin] at isSome
            exact nomatch isSome
      cases found : s.processed decl with
      | some ndecl =>
          obtain ⟨old, new, there', listed, _, type⟩ := normal.processed decl ndecl found
          cases there.symm.trans there'
          refine ⟨ndecl, s, ?_, normal, State.Grows.refl s, type ▸ declared_eq listed,
            fun b named => nomatch isBuiltin.symm.trans named⟩
          rw [rewriteDecl, found]
      | none =>
          refine ⟨_, _, ?_, normal.declare_other there other⟩
          simp only [rewriteDecl, found, there, processGlobalVariable, other]

end Declarations

/-! ## Loads -/

theorem exists_declared {module : Module} {decl : Nat} {type : IrType}
    (declared : module.declared decl = .ok type) :
    ∃ globalVariable, module[decl]? = some globalVariable ∧ globalVariable ∈ module := by
  rw [Module.declared] at declared
  cases there : module[decl]? with
  | none => rw [there] at declared; exact nomatch declared
  | some globalVariable => exact ⟨globalVariable, rfl, List.mem_of_getElem? there⟩

section Loads
variable {module : Module} (promises : ∀ globalVariable ∈ module, Promised globalVariable)

include promises

/-- The actual type is compared after the declaration has got the expected one. -/
theorem getReqCast_none {ptr : Ptr} : ∀ {s : State} {type : IrType}, Normal module s →
    ptr.pointee module.declared = .ok type →
    ∃ s', getReqCast module ptr s = .ok (none, s') ∧ Normal module s' ∧ s.Grows s' := by
  induction ptr with
  | value id pointedType => exact fun normal _ => ⟨_, rfl, normal, State.Grows.refl _⟩
  | refDecl decl =>
      intro s type normal typed
      obtain ⟨globalVariable, there, member⟩ := exists_declared typed
      cases named : globalVariable.builtin with
      | none =>
          refine ⟨s, ?_, normal, State.Grows.refl s⟩
          simp only [getReqCast, there, Option.bind_some, named]
      | some annotation =>
          obtain ⟨b, byName⟩ := Option.isSome_iff_exists.mp (promises _ member annotation named).1
          obtain ⟨ndecl, s', rewritten, spec⟩ := rewriteDecl_spec normal there (promises _ member)
          refine ⟨s', ?_, spec.normal, spec.grows⟩
          have expected : globalVariable.expectedType = b.type := by
            rw [GlobalVariable.expectedType, GlobalVariable.builtin?, named, Option.bind_some, byName]
            rfl
          have actual := spec.type
          rw [expected] at actual
          simp only [getReqCast, there, Option.bind_some, named, byName, rewritten, bind, Except.bind,
            actual, ne_eq, not_true_eq_false, if_false]
          rfl
  | ptrCompositeElement ptr index ih =>
      intro s type normal typed
      obtain ⟨pointeeType, inner, _⟩ := bind_eq_ok.mp typed
      obtain ⟨s', none, spec⟩ := ih normal inner
      refine ⟨s', ?_, spec⟩
      simp only [getReqCast, none, bind, Except.bind]

/-- A pointer is rewritten to one along the same chain in the expected types. -/
theorem rewritePtr_spec {ptr : Ptr} : ∀ {s : State} {type : IrType}, Normal module s →
    ptr.pointee module.declared = .ok type →
    ∃ s', rewritePtr module ptr s = (ptr.pointee (expectedTypes module)).map (fun t => (t, s')) ∧
      Normal module s' ∧ s.Grows s' := by
  induction ptr with
  | value id pointedType => exact fun normal _ => ⟨_, rfl, normal, State.Grows.refl _⟩
  | refDecl decl =>
      intro s type normal typed
      obtain ⟨globalVariable, there, member⟩ := exists_declared typed
      obtain ⟨ndecl, s', rewritten, spec⟩ := rewriteDecl_spec normal there (promises _ member)
      refine ⟨s', ?_, spec.normal, spec.grows⟩
      simp only [rewritePtr, rewritten, bind, Except.bind, spec.type, Ptr.pointee,
        expectedTypes_eq there]
      rfl
  | ptrCompositeElement ptr index ih =>
      intro s type normal typed
      obtain ⟨pointeeType, inner, _⟩ := bind_eq_ok.mp typed
      obtain ⟨s', rewritten, spec⟩ := ih normal inner
      refine ⟨s', ?_, spec⟩
      simp only [rewritePtr, rewritten, Ptr.pointee]
      cases ptr.pointee (expectedTypes module) with
      | error e => rfl
      | ok expected =>
          simp only [Except.map, bind, Except.bind]
          cases expected.enterCompositeType index <;> rfl

theorem processLoad_spec {config : TypesConfig} {ptr : Ptr} {s : State} {type : IrType}
    (normal : Normal module s) (typed : ptr.pointee module.declared = .ok type) :
    ∃ s', processLoad config module ptr s =
        (ptr.pointee (expectedTypes module)).map (fun t => (t, s')) ∧
      Normal module s' ∧ s.Grows s' := by
  obtain ⟨s', none, normal', grows⟩ := getReqCast_none promises normal typed
  obtain ⟨s'', rewritten, normal'', grows'⟩ := rewritePtr_spec promises normal' typed
  refine ⟨s'', ?_, normal'', grows.trans grows'⟩
  rw [processLoad, none]
  exact rewritten

end Loads

/-! ## Modules -/

theorem WellFormed.tail {module : Module} {visit : Visit} {rest : List Visit}
    (wellFormed : WellFormed module (visit :: rest)) : WellFormed module rest where
  declared decl member := wellFormed.declared decl (List.mem_cons_of_mem _ member)
  builtins := wellFormed.builtins
  loads ptr member := wellFormed.loads ptr (List.mem_cons_of_mem _ member)

theorem rewriteModule_spec {config : TypesConfig} {module : Module} {visits : List Visit} :
    ∀ {s : State}, WellFormed module visits → Normal module s →
    ∃ s', rewriteModule config module visits s =
        (loadTypes (expectedTypes module) visits).map (fun types => (types, s')) ∧
      Normal module s' ∧ s.Grows s' ∧
      ∀ decl globalVariable b, .declaration decl ∈ visits → module[decl]? = some globalVariable →
        globalVariable.builtin? = some b → ∃ ndecl, s'.builtins b = some ndecl := by
  induction visits with
  | nil =>
      exact fun _ normal => ⟨_, rfl, normal, State.Grows.refl _,
        fun _ _ _ member => absurd member List.not_mem_nil⟩
  | cons visit rest ih =>
      intro s wellFormed normal
      cases visit with
      | declaration decl =>
          have there := List.getElem?_eq_getElem (wellFormed.declared decl List.mem_cons_self)
          obtain ⟨ndecl, t, rewritten, spec⟩ := rewriteDecl_spec normal there
            (wellFormed.builtins _ (List.getElem_mem _))
          obtain ⟨s', later, normal', grows, visited⟩ := ih wellFormed.tail spec.normal
          refine ⟨s', ?_, normal', spec.grows.trans grows, ?_⟩
          · simp only [rewriteModule, rewritten, bind, Except.bind, later, loadTypes]
          · intro decl' globalVariable b member there' isBuiltin
            cases List.mem_cons.mp member with
            | inl same =>
                cases same
                cases there.symm.trans there'
                exact ⟨ndecl, grows b ndecl (spec.builtin b isBuiltin)⟩
            | inr earlier => exact visited decl' globalVariable b earlier there' isBuiltin
      | load ptr =>
          obtain ⟨type, typed⟩ := wellFormed.loads ptr List.mem_cons_self
          obtain ⟨t, loaded, normal', grows⟩ :=
            @processLoad_spec module wellFormed.builtins config ptr s type normal typed
          obtain ⟨s', later, normal'', grows', visited⟩ := ih wellFormed.tail normal'
          refine ⟨s', ?_, normal'', grows.trans grows', ?_⟩
          · simp only [rewriteModule, loaded, loadTypes]
            cases ptr.pointee (expectedTypes module) with
            | error e => rfl
            | ok expected =>
                simp only [Except.map, bind, Except.bind, later]
                cases loadTypes (expectedTypes module) rest <;> rfl
          · intro decl globalVariable b member
            cases List.mem_cons.mp member with
            | inl same => exact nomatch same
            | inr earlier => exact visited decl globalVariable b earlier

theorem loadTypes_succeeds {module : Module} {visits : List Visit}
    (loads : ∀ ptr, .load ptr ∈ visits → ∃ type, ptr.pointee module.declared = .ok type) :
    ∃ types, loadTypes module.declared visits = .ok types := by
  induction visits with
  | nil => exact ⟨[], rfl⟩
  | cons visit rest ih =>
      obtain ⟨types, later⟩ := ih fun ptr member => loads ptr (List.mem_cons_of_mem _ member)
      cases visit with
      | declaration decl => exact ⟨types, later⟩
      | load ptr =>
          obtain ⟨type, typed⟩ := loads ptr List.mem_cons_self
          refine ⟨type :: types, ?_⟩
          simp only [loadTypes, typed, later, bind, Except.bind]
          rfl

/-- The types of all loads are the same when each is. -/
theorem loadTypes_eq_iff {module : Module} {visits : List Visit} {types : List IrType}
    {declared : Nat → Except CheckError IrType}
    (original : loadTypes module.declared visits = .ok types) :
    loadTypes declared visits = .ok types ↔
      ∀ ptr, .load ptr ∈ visits → ptr.pointee declared = ptr.pointee module.declared := by
  induction visits generalizing types with
  | nil => exact ⟨fun _ _ member => absurd member List.not_mem_nil, fun _ => original⟩
  | cons visit rest ih =>
      cases visit with
      | declaration decl =>
          rw [loadTypes] at original
          rw [loadTypes, ih original]
          constructor
          · intro same ptr member
            cases List.mem_cons.mp member with
            | inl this => exact nomatch this
            | inr later => exact same ptr later
          · exact fun same ptr member => same ptr (List.mem_cons_of_mem _ member)
      | load ptr =>
          obtain ⟨type, typed, original⟩ := bind_eq_ok.mp original
          obtain ⟨others, later, original⟩ := bind_eq_ok.mp original
          cases original
          constructor
          · intro all ptr' member
            obtain ⟨type', typed', all⟩ := bind_eq_ok.mp all
            obtain ⟨others', later', all⟩ := bind_eq_ok.mp all
            cases all
            cases List.mem_cons.mp member with
            | inl this =>
                cases this
                exact typed'.trans typed.symm
            | inr behind => exact (ih later).mp later' ptr' behind
          · intro same
            have first := (same ptr List.mem_cons_self).trans typed
            have rest := (ih later).mpr fun ptr' member => same ptr' (List.mem_cons_of_mem _ member)
            simp only [loadTypes, first, rest, bind, Except.bind]
            rfl

def signedLocalId : Module :=
  [⟨"local_id", some "LocalInvocationId", .pack (.int .intTy32 true) 3, .input, false⟩]

def firstComponent : Ptr := .ptrCompositeElement (.refDecl 0) (.literal ⟨.intTy32, false, 0⟩)

def simt : TypesConfig := ⟨fun _ => true, .intTy64, true⟩

theorem signedLocalId_wellFormed : WellFormed signedLocalId [.load firstComponent] where
  declared decl member := by simp at member
  builtins globalVariable member annotation named := by
    cases List.mem_singleton.mp member
    cases named
    exact ⟨by decide, rfl⟩
  loads ptr member := by
    cases List.mem_singleton.mp member
    exact ⟨.int .intTy32 true, rfl⟩

end Shady.NormalizeBuiltins
