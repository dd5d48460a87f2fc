import Shady.Frontend.BindRuns

/-!
# When the binding pass gives what lexical scoping says

A run of the pass over an expression or a body ends with the lexical reading, as long as the names in
types have one meaning, no result but the first is stored, and the declarations can be looked up.
-/

set_option autoImplicit false
set_option linter.unusedSectionVars false

namespace Shady.Bind

open Scoping Stateful

/-- The declarations that occurrences stand for are in the new module. -/
def State.Declares (st : State) (occurrences : List Occurrence) : Prop :=
  ∀ o ∈ occurrences, ∀ j, o.resolved.node = .declaration j → j ∈ st.newDecls

/-- From every state of the invariant, the program ends with `a` in one, and declares what the
occurrences of `a` stand for. -/
def Gives {α : Type} (inv : State → Prop) (x : M α) (a : α) (occurrences : List Occurrence) : Prop :=
  ∀ st, inv st → ∃ st', x.run st = .ok (a, st') ∧ inv st' ∧ st.newDecls ⊆ st'.newDecls ∧
    st'.Declares occurrences

section Rules

variable {inv : State → Prop} {α β : Type}

theorem Gives.pure (a : α) : Gives inv (Pure.pure a) a [] := fun st start =>
  ⟨st, rfl, start, fun _ member => member, fun _ member => absurd member List.not_mem_nil⟩

theorem Gives.bind {x : M α} {f : α → M β} {a : α} {b : β} {first next : List Occurrence}
    (left : Gives inv x a first) (right : Gives inv (f a) b next) :
    Gives inv (x >>= f) b (first ++ next) := by
  intro st start
  obtain ⟨st', ran, kept, more, declares⟩ := left st start
  obtain ⟨st'', rest, done, again, others⟩ := right st' kept
  refine ⟨st'', run_bind_eq_ok.mpr ⟨a, st', ran, rest⟩, done, fun j member => again (more member), ?_⟩
  intro o member j declared
  cases List.mem_append.mp member with
  | inl here => exact again (declares o here j declared)
  | inr later => exact others o later j declared

theorem Gives.map {x : M α} {a : α} {occurrences : List Occurrence} (f : α → β)
    (gives : Gives inv x a occurrences) : Gives inv (x >>= fun a => Pure.pure (f a)) (f a) occurrences := by
  have both := gives.bind (f := fun a => (Pure.pure (f a) : M β)) (Gives.pure (f a))
  rwa [List.append_nil] at both

theorem Gives.of_eq {x : M α} {a : α} {occurrences others : List Occurrence}
    (gives : Gives inv x a occurrences) (same : occurrences = others) : Gives inv x a others :=
  same ▸ gives

theorem Gives.of_subset {x : M α} {a : α} {occurrences others : List Occurrence}
    (subset : others ⊆ occurrences) (gives : Gives inv x a occurrences) : Gives inv x a others := by
  intro st start
  obtain ⟨st', ran, kept, more, declares⟩ := gives st start
  exact ⟨st', ran, kept, more, fun o member => declares o (subset member)⟩

theorem Gives.forget {x : M α} {a : α} {occurrences : List Occurrence}
    (gives : Gives inv x a occurrences) : Gives inv x a [] :=
  gives.of_subset (List.nil_subset _)

end Rules

/-- What the runs over expressions and bodies rest on: `table` is what the names in types stand for,
and `Demand` holds of the declarations that can be looked up. -/
structure Serves (outer : Scope Name Resolved) (table : Name → Option Resolved) (Demand : Nat → Prop)
    (inv : State → Prop) (top : Name → M Resolved) : Prop where
  top : ∀ name resolved, outer name = some resolved →
    (∀ j, resolved.node = .declaration j → Demand j) →
    Gives inv (top name) resolved [⟨true, name, resolved⟩]
  agrees : ∀ st name resolved, inv st → st.processed.lookup name = some resolved →
    table name = some resolved ∧ ∀ j, resolved.node = .declaration j → j ∈ st.newDecls
  keeps : ∀ st name resolved, inv st → table name = some resolved →
    (∀ j, resolved.node = .declaration j → j ∈ st.newDecls) →
    inv { st with processed := (name, resolved) :: st.processed }

/-- What a name in a type stands for is in the table, and a declaration can be looked up. -/
def Fits (table : Name → Option Resolved) (Demand : Nat → Prop) (occurrences : List Occurrence) :
    Prop :=
  ∀ o ∈ occurrences, (o.hasMem = false → table o.name = some o.resolved) ∧
    ∀ j, o.resolved.node = .declaration j → Demand j

theorem Fits.left {table : Name → Option Resolved} {Demand : Nat → Prop}
    {first next : List Occurrence} (fits : Fits table Demand (first ++ next)) :
    Fits table Demand first := fun o member => fits o (List.mem_append_left _ member)

theorem Fits.right {table : Name → Option Resolved} {Demand : Nat → Prop}
    {first next : List Occurrence} (fits : Fits table Demand (first ++ next)) :
    Fits table Demand next := fun o member => fits o (List.mem_append_right _ member)

/-- Local names stand for no declaration of the module. -/
def LocalEnv (env : Env) : Prop := ∀ entry ∈ env, ∀ j, entry.2.node ≠ .declaration j

/-! ## Expressions -/

section Expressions

variable {outer : Scope Name Resolved} {table : Name → Option Resolved} {Demand : Nat → Prop}
  {inv : State → Prop} {top : Name → M Resolved} (serves : Serves outer table Demand inv top)
  {env : Env} (localEnv : LocalEnv env)

include serves localEnv

theorem resolveUsingName_gives {name : Name} {resolved : Resolved}
    (found : inScope env outer name = some resolved)
    (demanded : ∀ j, resolved.node = .declaration j → Demand j) :
    Gives inv (resolveUsingName top env name) resolved [⟨true, name, resolved⟩] := by
  rw [inScope] at found
  rw [resolveUsingName]
  cases entry : env.find? (fun entry => entry.1 = name) with
  | none =>
      rw [entry] at found
      exact serves.top name resolved found demanded
  | some declared =>
      rw [entry] at found
      cases found
      intro st start
      refine ⟨st, rfl, start, fun _ member => member, ?_⟩
      intro o member j same
      cases List.mem_singleton.mp member
      exact absurd same (localEnv declared (List.mem_of_find?_eq_some entry) j)

theorem bindUnbound_gives {hasMem : Bool} {name : Name} {resolved : Resolved}
    (found : inScope env outer name = some resolved)
    (fits : Fits table Demand [⟨hasMem, name, resolved⟩]) :
    Gives inv (bindUnbound top env hasMem name) (.value hasMem name resolved)
      [⟨hasMem, name, resolved⟩] := by
  obtain ⟨inTable, demanded⟩ := fits _ (List.mem_singleton.mpr rfl)
  have resolves := resolveUsingName_gives serves localEnv found demanded
  cases hasMem with
  | true => exact resolves.map _
  | false =>
      have inTable := inTable rfl
      intro st start
      cases remembered : st.processed.lookup name with
      | some other =>
          obtain ⟨same, declared⟩ := serves.agrees st name other start remembered
          cases inTable.symm.trans same
          refine ⟨st, ?_, start, fun _ member => member, ?_⟩
          · apply run_bind_eq_ok.mpr
            refine ⟨st, st, rfl, ?_⟩
            simp only [remembered]
            rfl
          · intro o member
            cases List.mem_singleton.mp member
            exact declared
      | none =>
          obtain ⟨next, ran, kept, more, declares⟩ := resolves st start
          have declared := declares _ (List.mem_singleton.mpr rfl)
          have registers : ∃ st', (registerProcessed name resolved).run next = .ok ((), st') ∧ inv st' ∧
              st'.newDecls = next.newDecls := by
            cases already : next.processed.lookup name with
            | some other =>
                -- a declaration on the way has met the name
                obtain ⟨same, _⟩ := serves.agrees next name other kept already
                cases inTable.symm.trans same
                refine ⟨next, ?_, kept, rfl⟩
                apply run_bind_eq_ok.mpr
                refine ⟨next, next, rfl, ?_⟩
                simp only [already, if_true]
                rfl
            | none =>
                refine ⟨_, ?_, serves.keeps next name resolved kept inTable declared, rfl⟩
                apply run_bind_eq_ok.mpr
                refine ⟨next, next, rfl, ?_⟩
                simp only [already]
                rfl
          obtain ⟨st', registered, done, same⟩ := registers
          refine ⟨st', ?_, done, same ▸ more, ?_⟩
          · apply run_bind_eq_ok.mpr
            refine ⟨st, st, rfl, ?_⟩
            simp only [remembered]
            exact run_bind_eq_ok.mpr ⟨_, _, ran, run_bind_eq_ok.mpr ⟨_, _, registered, rfl⟩⟩
          · intro o member
            cases List.mem_singleton.mp member
            rw [same]
            exact declared

/-- An expression that is no place has no address, and finding that out needs no other names. -/
theorem noAddress_gives : ∀ (e : Expr) {b : BoundExpr}, isPlace (inScope env outer) e = false →
    scopedValue (inScope env outer) e = some b → Fits table Demand b.occurrences →
    Gives inv (getNodeAddressMaybe top env e) none []
  | .leaf _, _, _, _, _ => Gives.pure none
  | .param _ _, _, _, _, _ => Gives.pure none
  | .addrOf _, _, _, _, _ => Gives.pure none
  | .assign _ _, _, _, _, _ => Gives.pure none
  | .node _ _ _, _, _, _, _ => Gives.pure none
  | .dereference _, _, noPlace, _, _ => nomatch noPlace
  | .unbound _ name, _, noPlace, read, fits => by
      obtain ⟨resolved, found, same⟩ := Option.bind_eq_some_iff.mp read
      cases same
      have noVar : resolved.isVar = false := by
        rw [isPlace, found] at noPlace
        exact noPlace
      have resolves := resolveUsingName_gives serves localEnv found (fits _ List.mem_cons_self).2
      have gives := resolves.map fun entry =>
        if entry.isVar then some (BoundExpr.address name entry) else none
      rw [if_neg (by simp [noVar])] at gives
      exact gives.forget
  | .subscript base index, _, noPlace, read, fits => by
      have noPlace : isPlace (inScope env outer) base = false := noPlace
      rw [scopedValue, if_neg (by simp [noPlace])] at read
      obtain ⟨boundBase, ofBase, read⟩ := Option.bind_eq_some_iff.mp read
      obtain ⟨boundIndex, ofIndex, same⟩ := Option.bind_eq_some_iff.mp read
      cases same
      exact (noAddress_gives base noPlace ofBase fits.left).bind (Gives.pure none)

mutual
theorem bindValue_gives : ∀ (e : Expr) {b : BoundExpr},
    scopedValue (inScope env outer) e = some b → Fits table Demand b.occurrences →
    Gives inv (bindValue top env e) b b.occurrences
  | .leaf _, _, read, _ => by
      cases read
      exact Gives.pure _
  | .param _ _, _, read, _ => by
      cases read
      exact Gives.pure _
  | .unbound _ _, _, read, fits => by
      obtain ⟨resolved, found, same⟩ := Option.bind_eq_some_iff.mp read
      cases same
      exact bindUnbound_gives serves localEnv found fits
  | .dereference ptr, _, read, fits => by
      obtain ⟨boundPtr, ofPtr, same⟩ := Option.bind_eq_some_iff.mp read
      cases same
      exact (bindValue_gives ptr ofPtr fits).map BoundExpr.load
  | .addrOf place, b, read, fits => by
      have gives := (getNodeAddressMaybe_gives place read fits).bind (f := fun address =>
        match address with
        | some ptr => Pure.pure ptr
        | none => fail .notAPlace) (Gives.pure b)
      exact gives.of_eq (List.append_nil _)
  | .assign target value, _, read, fits => by
      obtain ⟨ptr, ofTarget, read⟩ := Option.bind_eq_some_iff.mp read
      obtain ⟨boundValue, ofValue, same⟩ := Option.bind_eq_some_iff.mp read
      cases same
      exact (getNodeAddressMaybe_gives target ofTarget fits.left).bind
        ((bindValue_gives value ofValue fits.right).map (BoundExpr.store ptr))
  | .subscript base index, _, read, fits => by
      rw [scopedValue] at read
      cases place : isPlace (inScope env outer) base with
      | true =>
          rw [if_pos place] at read
          obtain ⟨ptr, ofBase, read⟩ := Option.bind_eq_some_iff.mp read
          obtain ⟨boundIndex, ofIndex, same⟩ := Option.bind_eq_some_iff.mp read
          cases same
          exact (getNodeAddressMaybe_gives base ofBase fits.left).bind
            ((bindValue_gives index ofIndex fits.right).map fun i => BoundExpr.load (.element ptr i))
      | false =>
          rw [if_neg (by simp [place])] at read
          obtain ⟨boundBase, ofBase, read⟩ := Option.bind_eq_some_iff.mp read
          obtain ⟨boundIndex, ofIndex, same⟩ := Option.bind_eq_some_iff.mp read
          cases same
          exact (noAddress_gives serves localEnv base place ofBase fits.left).bind
            ((bindValue_gives base ofBase fits.left).bind
              ((bindValue_gives index ofIndex fits.right).map (BoundExpr.extract boundBase)))
  | .node _ tag operands, _, read, fits => by
      obtain ⟨boundOperands, ofOperands, same⟩ := Option.bind_eq_some_iff.mp read
      cases same
      exact (bindValues_gives operands ofOperands fits).map (BoundExpr.node tag)

theorem getNodeAddressMaybe_gives : ∀ (e : Expr) {b : BoundExpr},
    scopedAddress (inScope env outer) e = some b → Fits table Demand b.occurrences →
    Gives inv (getNodeAddressMaybe top env e) (some b) b.occurrences
  | .leaf _, _, read, _ => nomatch read
  | .param _ _, _, read, _ => nomatch read
  | .addrOf _, _, read, _ => nomatch read
  | .assign _ _, _, read, _ => nomatch read
  | .node _ _ _, _, read, _ => nomatch read
  | .unbound _ name, _, read, fits => by
      obtain ⟨resolved, found, read⟩ := Option.bind_eq_some_iff.mp read
      obtain ⟨isVar, same⟩ := Option.ite_none_right_eq_some.mp read
      cases same
      have resolves := resolveUsingName_gives serves localEnv found (fits _ List.mem_cons_self).2
      have gives := resolves.map fun entry =>
        if entry.isVar then some (BoundExpr.address name entry) else none
      rw [if_pos isVar] at gives
      exact gives
  | .dereference ptr, _, read, fits => (bindValue_gives ptr read fits).map some
  | .subscript base index, _, read, fits => by
      obtain ⟨ptr, ofBase, read⟩ := Option.bind_eq_some_iff.mp read
      obtain ⟨boundIndex, ofIndex, same⟩ := Option.bind_eq_some_iff.mp read
      cases same
      exact (getNodeAddressMaybe_gives base ofBase fits.left).bind
        ((bindValue_gives index ofIndex fits.right).map fun i => some (BoundExpr.element ptr i))

theorem bindValues_gives : ∀ (es : List Expr) {bs : List BoundExpr},
    scopedValues (inScope env outer) es = some bs → Fits table Demand (occurrencesAll bs) →
    Gives inv (bindValues top env es) bs (occurrencesAll bs)
  | [], _, read, _ => by
      cases read
      exact Gives.pure _
  | e :: rest, _, read, fits => by
      obtain ⟨first, here, read⟩ := Option.bind_eq_some_iff.mp read
      obtain ⟨others, there, same⟩ := Option.bind_eq_some_iff.mp read
      cases same
      exact (bindValue_gives e here fits.left).bind
        ((bindValues_gives rest there fits.right).map (List.cons first))
end

theorem bindAlone_gives {e : Expr} {bs : List BoundExpr}
    (read : (do return [← scopedValue (inScope env outer) e] : Option (List BoundExpr)) = some bs)
    (fits : Fits table Demand (occurrencesAll bs)) :
    Gives inv (do return [← bindValue top env e] : M (List BoundExpr)) bs (occurrencesAll bs) := by
  obtain ⟨b, ofValue, same⟩ := Option.bind_eq_some_iff.mp read
  cases same
  have gives := (bindValue_gives serves localEnv e ofValue fits.left).map fun b => [b]
  exact gives.of_eq (List.append_nil _).symm

mutual
theorem bindDiscarded_gives : ∀ (e : Expr) {bs : List BoundExpr},
    scopedDiscarded (inScope env outer) e = some bs → Fits table Demand (occurrencesAll bs) →
    Gives inv (bindDiscarded top env e) bs (occurrencesAll bs)
  | .leaf _, _, read, _ => by
      cases read
      exact Gives.pure _
  | .param _ _, _, read, _ => by
      cases read
      exact Gives.pure _
  | .unbound _ _, _, read, _ => by
      cases read
      exact Gives.pure _
  | .dereference ptr, _, read, fits => bindAlone_gives serves localEnv read fits
  | .addrOf _, _, read, fits => bindAlone_gives serves localEnv read fits
  | .assign _ _, _, read, fits => bindAlone_gives serves localEnv read fits
  | .subscript _ _, _, read, fits => bindAlone_gives serves localEnv read fits
  | .node true _ _, _, read, fits => bindAlone_gives serves localEnv read fits
  | .node false _ operands, _, read, fits => bindDiscardedAll_gives operands read fits

theorem bindDiscardedAll_gives : ∀ (es : List Expr) {bs : List BoundExpr},
    scopedDiscardedAll (inScope env outer) es = some bs → Fits table Demand (occurrencesAll bs) →
    Gives inv (bindDiscardedAll top env es) bs (occurrencesAll bs)
  | [], _, read, _ => by
      cases read
      exact Gives.pure _
  | e :: rest, _, read, fits => by
      obtain ⟨first, here, read⟩ := Option.bind_eq_some_iff.mp read
      obtain ⟨others, there, same⟩ := Option.bind_eq_some_iff.mp read
      cases same
      rw [occurrencesAll_append] at fits ⊢
      exact (bindDiscarded_gives e here fits.left).bind
        ((bindDiscardedAll_gives rest there fits.right).map fun others => first ++ others)
end

end Expressions

/-! ## Bodies -/

theorem LocalEnv.cons {env : Env} (localEnv : LocalEnv env) {name : Name} {resolved : Resolved}
    (localHere : ∀ j, resolved.node ≠ .declaration j) : LocalEnv ((name, resolved) :: env) := by
  intro entry member
  cases List.mem_cons.mp member with
  | inl same => exact same ▸ localHere
  | inr earlier => exact localEnv entry earlier

theorem LocalEnv.push {env : Env} (localEnv : LocalEnv env) {entries : List (Name × Resolved)}
    (localEntries : LocalEnv entries) : LocalEnv (push env entries) := by
  induction entries generalizing env with
  | nil => exact localEnv
  | cons entry rest ih =>
      apply ih
      · exact localEnv.cons (localEntries entry List.mem_cons_self)
      · exact fun other member => localEntries other (List.mem_cons_of_mem _ member)

theorem localEnv_paramBindings (site : Nat) (params : List Param) :
    LocalEnv (paramBindings site params) := by
  intro entry member j
  obtain ⟨⟨param, i⟩, _, made⟩ := List.mem_filterMap.mp member
  obtain ⟨name, _, same⟩ := Option.map_eq_some_iff.mp made
  rw [← same]
  exact nofun

theorem localEnv_valBindings (site : Nat) (names : List Name) : LocalEnv (valBindings site names) := by
  intro entry member j
  obtain ⟨⟨name, i⟩, _, same⟩ := List.mem_map.mp member
  rw [← same]
  exact nofun

theorem localEnv_blockBindings (block : Block) : LocalEnv (blockBindings block) := by
  rw [blockBindings]
  cases block.name with
  | none => exact localEnv_paramBindings _ _
  | some name =>
      intro entry member
      cases List.mem_cons.mp member with
      | inl same =>
          rw [same]
          exact fun j => nofun
      | inr param => exact localEnv_paramBindings _ _ entry param

def BoundBlock.paramTypes : BoundBlock → List BoundExpr
  | .mk _ paramTypes _ => paramTypes

def BoundBlock.body : BoundBlock → BoundBody
  | .mk _ _ body => body

def bodyOccurrences (blocks : List BoundBlock) : List Occurrence :=
  blocks.flatMap fun block => block.body.occurrences

theorem mem_blockOccurrences {blocks : List BoundBlock} {types : List (List BoundExpr)}
    (same : blocks.map BoundBlock.paramTypes = types) (o : Occurrence) :
    o ∈ blockOccurrences blocks ↔ o ∈ types.flatMap occurrencesAll ∨ o ∈ bodyOccurrences blocks := by
  induction blocks generalizing types with
  | nil =>
      rw [← same]
      exact ⟨.inl, fun member => member.elim id id⟩
  | cons block rest ih =>
      obtain ⟨site, paramTypes, body⟩ := block
      rw [← same, blockOccurrences, BoundBlock.occurrences, bodyOccurrences, List.map_cons,
        List.flatMap_cons, List.flatMap_cons, List.mem_append, List.mem_append, List.mem_append,
        List.mem_append, ih rfl]
      change (_ ∨ _) ∨ _ ∨ o ∈ rest.flatMap (fun block => block.body.occurrences) ↔ _
      exact or_or_or_comm

/-- Each continuation has the types that were read with its name. -/
theorem paramTypes_of_scopedContinuations {blocks : List Block} :
    ∀ {scope inner scope' : Scope Name Resolved} {types : List (List BoundExpr)}
      {bs : List BoundBlock}, scopedContinuationNames scope blocks = some (types, inner) →
      scopedContinuations scope' types blocks = some bs → bs.map BoundBlock.paramTypes = types := by
  induction blocks with
  | nil =>
      intro scope inner scope' types bs names bodies
      cases names
      cases bodies
      rfl
  | cons block rest ih =>
      intro scope inner scope' types bs names bodies
      obtain ⟨site, blockName, params, body⟩ := block
      obtain ⟨first, _, names⟩ := Option.bind_eq_some_iff.mp names
      obtain ⟨name, _, names⟩ := Option.bind_eq_some_iff.mp names
      obtain ⟨⟨others, end'⟩, ofRest, same⟩ := Option.bind_eq_some_iff.mp names
      cases same
      obtain ⟨boundBody, _, bodies⟩ := Option.bind_eq_some_iff.mp bodies
      obtain ⟨more, there, same⟩ := Option.bind_eq_some_iff.mp bodies
      cases same
      rw [List.map_cons, ih ofRest there]
      rfl

section Bodies

variable {outer : Scope Name Resolved} {table : Name → Option Resolved} {Demand : Nat → Prop}
  {inv : State → Prop} {top : Name → M Resolved} (serves : Serves outer table Demand inv top)

include serves

theorem bindVariables_gives (site : Nat) : ∀ (declared : List (Name × Expr)) {env : Env} {i : Nat}
    {slots : List Slot} {inner : Scope Name Resolved}, LocalEnv env →
    scopedVariables site (inScope env outer) i declared = some (slots, inner) →
    Fits table Demand (slotOccurrences slots) → (∀ k ∈ slots.map Slot.stored, k = 0) →
    ∃ env', inScope env' outer = inner ∧ LocalEnv env' ∧
      Gives inv (bindVariables top site env i declared) (slots, env') (slotOccurrences slots)
  | [], env, _, _, _, localEnv, read, _, _ => by
      cases read
      exact ⟨env, rfl, localEnv, Gives.pure _⟩
  | (name, type) :: rest, env, i, _, _, localEnv, read, fits, first => by
      obtain ⟨boundType, ofType, read⟩ := Option.bind_eq_some_iff.mp read
      obtain ⟨⟨slots, inner⟩, ofRest, same⟩ := Option.bind_eq_some_iff.mp read
      cases same
      obtain rfl : i = 0 := first i List.mem_cons_self
      rw [← inScope_cons] at ofRest
      obtain ⟨env', scope, localEnd, gives⟩ := bindVariables_gives site rest
        (localEnv.cons (by intro _ same; exact nomatch same)) ofRest fits.right
        fun k member => first k (List.mem_cons_of_mem _ member)
      refine ⟨env', scope, localEnd, ?_⟩
      exact (bindValue_gives serves localEnv type ofType fits.left).bind
        (gives.map fun result => ((⟨name, boundType, 0⟩ : Slot) :: result.1, result.2))

theorem bindContinuationNames_gives : ∀ (blocks : List Block) {env : Env}
    {types : List (List BoundExpr)} {inner : Scope Name Resolved}, LocalEnv env →
    scopedContinuationNames (inScope env outer) blocks = some (types, inner) →
    Fits table Demand (types.flatMap occurrencesAll) →
    ∃ env', inScope env' outer = inner ∧ LocalEnv env' ∧
      Gives inv (bindContinuationNames top env blocks) (types, env') (types.flatMap occurrencesAll)
  | [], env, _, _, localEnv, read, _ => by
      cases read
      exact ⟨env, rfl, localEnv, Gives.pure _⟩
  | block :: rest, env, _, _, localEnv, read, fits => by
      obtain ⟨types, ofParams, read⟩ := Option.bind_eq_some_iff.mp read
      obtain ⟨name, named, read⟩ := Option.bind_eq_some_iff.mp read
      obtain ⟨⟨others, inner⟩, ofRest, same⟩ := Option.bind_eq_some_iff.mp read
      cases same
      rw [← inScope_cons] at ofRest
      obtain ⟨env', scope, localEnd, gives⟩ :=
        bindContinuationNames_gives rest (localEnv.cons (by intro _ same; exact nomatch same)) ofRest fits.right
      refine ⟨env', scope, localEnd, ?_⟩
      rw [bindContinuationNames]
      refine (bindValues_gives serves localEnv _ ofParams fits.left).bind ?_
      simp only [named]
      exact gives.map fun result => (types :: result.1, result.2)

mutual
theorem bindBody_gives : ∀ (body : Body) {env : Env} {b : BoundBody}, LocalEnv env →
    scopedBody (inScope env outer) body = some b → Fits table Demand b.occurrences →
    (∀ k ∈ b.stored, k = 0) → Gives inv (bindBody top env body) b b.occurrences
  | .eval e rest, _, _, localEnv, read, fits, first => by
      obtain ⟨effects, ofEffects, read⟩ := Option.bind_eq_some_iff.mp read
      obtain ⟨boundRest, ofRest, same⟩ := Option.bind_eq_some_iff.mp read
      cases same
      exact (bindDiscarded_gives serves localEnv e ofEffects fits.left).bind
        ((bindBody_gives rest localEnv ofRest fits.right first).map (BoundBody.eval effects))
  | .bindVal site value names rest, _, _, localEnv, read, fits, first => by
      obtain ⟨boundValue, ofValue, read⟩ := Option.bind_eq_some_iff.mp read
      obtain ⟨boundRest, ofRest, same⟩ := Option.bind_eq_some_iff.mp read
      cases same
      rw [← inScope_push] at ofRest
      have localRest := localEnv.push (localEnv_valBindings site names)
      exact (bindValue_gives serves localEnv value ofValue fits.left).bind
        ((bindBody_gives rest localRest ofRest fits.right first).map (BoundBody.values site boundValue))
  | .bindVar site value names types rest, _, _, localEnv, read, fits, first => by
      obtain ⟨boundValue, ofValue, read⟩ := Option.bind_eq_some_iff.mp read
      obtain ⟨⟨slots, inner⟩, ofVariables, read⟩ := Option.bind_eq_some_iff.mp read
      obtain ⟨boundRest, ofRest, same⟩ := Option.bind_eq_some_iff.mp read
      cases same
      obtain ⟨env', rfl, localRest, declares⟩ := bindVariables_gives serves site _ localEnv ofVariables
        fits.left.right fun k member => first k (List.mem_append_left _ member)
      have rest := bindBody_gives rest localRest ofRest fits.right
        fun k member => first k (List.mem_append_right _ member)
      refine Gives.of_eq ?_ (List.append_assoc _ _ _).symm
      exact (bindValue_gives serves localEnv value ofValue fits.left.left).bind
        (declares.bind (rest.map (BoundBody.variables site boundValue slots)))
  | .construct tag operands blocks tail, _, _, localEnv, read, fits, first => by
      obtain ⟨boundOperands, ofOperands, read⟩ := Option.bind_eq_some_iff.mp read
      obtain ⟨boundBlocks, ofBlocks, read⟩ := Option.bind_eq_some_iff.mp read
      obtain ⟨boundTail, ofTail, same⟩ := Option.bind_eq_some_iff.mp read
      cases same
      have inner := bindBlocks_gives blocks localEnv ofBlocks fits.left.right
        fun k member => first k (List.mem_append_left _ member)
      have rest := bindBlock_gives tail localEnv ofTail fits.right
        fun k member => first k (List.mem_append_right _ member)
      refine Gives.of_eq ?_ (List.append_assoc _ _ _).symm
      exact (bindValues_gives serves localEnv operands ofOperands fits.left.left).bind
        (inner.bind (rest.map (BoundBody.construct tag boundOperands boundBlocks)))
  | .finish continuations terminator, _, _, localEnv, read, fits, first => by
      obtain ⟨⟨types, inner⟩, ofNames, read⟩ := Option.bind_eq_some_iff.mp read
      obtain ⟨boundContinuations, ofBodies, read⟩ := Option.bind_eq_some_iff.mp read
      obtain ⟨boundTerminator, ofTerminator, same⟩ := Option.bind_eq_some_iff.mp read
      cases same
      have sameTypes := paramTypes_of_scopedContinuations ofNames ofBodies
      have typesFit : Fits table Demand (types.flatMap occurrencesAll) := fun o member =>
        fits.left o ((mem_blockOccurrences sameTypes o).mpr (.inl member))
      have bodiesFit : Fits table Demand (bodyOccurrences boundContinuations) := fun o member =>
        fits.left o ((mem_blockOccurrences sameTypes o).mpr (.inr member))
      obtain ⟨env', rfl, localRest, declares⟩ :=
        bindContinuationNames_gives serves continuations localEnv ofNames typesFit
      have bodies := bindContinuations_gives continuations types localRest ofBodies bodiesFit first
      have last := bindValue_gives serves localRest terminator ofTerminator fits.right
      refine Gives.of_subset ?_
        (declares.bind (bodies.bind (last.map (BoundBody.finish boundContinuations))))
      intro o member
      cases List.mem_append.mp member with
      | inr ofTerminator => exact List.mem_append_right _ (List.mem_append_right _ ofTerminator)
      | inl ofBlocks =>
          cases (mem_blockOccurrences sameTypes o).mp ofBlocks with
          | inl ofTypes => exact List.mem_append_left _ ofTypes
          | inr ofBodies => exact List.mem_append_right _ (List.mem_append_left _ ofBodies)

theorem bindBlock_gives : ∀ (block : Block) {env : Env} {b : BoundBlock}, LocalEnv env →
    scopedBlock (inScope env outer) block = some b → Fits table Demand b.occurrences →
    (∀ k ∈ b.stored, k = 0) → Gives inv (bindBlock top env block) b b.occurrences
  | .mk site name params body, _, _, localEnv, read, fits, first => by
      obtain ⟨types, ofParams, read⟩ := Option.bind_eq_some_iff.mp read
      obtain ⟨boundBody, ofBody, same⟩ := Option.bind_eq_some_iff.mp read
      cases same
      rw [← inScope_push] at ofBody
      have localBody := localEnv.push (localEnv_blockBindings (.mk site name params body))
      exact (bindValues_gives serves localEnv _ ofParams fits.left).bind
        ((bindBody_gives body localBody ofBody fits.right first).map (BoundBlock.mk site types))

theorem bindBlocks_gives : ∀ (blocks : List Block) {env : Env} {bs : List BoundBlock}, LocalEnv env →
    scopedBlocks (inScope env outer) blocks = some bs → Fits table Demand (blockOccurrences bs) →
    (∀ k ∈ blockStored bs, k = 0) → Gives inv (bindBlocks top env blocks) bs (blockOccurrences bs)
  | [], _, _, _, read, _, _ => by
      cases read
      exact Gives.pure _
  | block :: rest, _, _, localEnv, read, fits, first => by
      obtain ⟨boundBlock, here, read⟩ := Option.bind_eq_some_iff.mp read
      obtain ⟨others, there, same⟩ := Option.bind_eq_some_iff.mp read
      cases same
      have one := bindBlock_gives block localEnv here fits.left
        fun k member => first k (List.mem_append_left _ member)
      have more := bindBlocks_gives rest localEnv there fits.right
        fun k member => first k (List.mem_append_right _ member)
      exact one.bind (more.map (List.cons boundBlock))

theorem bindContinuations_gives : ∀ (blocks : List Block) (types : List (List BoundExpr)) {env : Env}
    {bs : List BoundBlock}, LocalEnv env →
    scopedContinuations (inScope env outer) types blocks = some bs →
    Fits table Demand (bodyOccurrences bs) → (∀ k ∈ blockStored bs, k = 0) →
    Gives inv (bindContinuations top env types blocks) bs (bodyOccurrences bs)
  | [], [], _, _, _, read, _, _ => by
      cases read
      exact Gives.pure _
  | [], _ :: _, _, _, _, read, _, _ => by
      cases read
      exact Gives.pure _
  | _ :: _, [], _, _, _, read, _, _ => by
      cases read
      exact Gives.pure _
  | .mk site name params body :: rest, types :: others, _, _, localEnv, read, fits, first => by
      obtain ⟨boundBody, here, read⟩ := Option.bind_eq_some_iff.mp read
      obtain ⟨bound', there, same⟩ := Option.bind_eq_some_iff.mp read
      cases same
      rw [← inScope_push] at here
      have localBody := localEnv.push (localEnv_paramBindings site params)
      have one := bindBody_gives body localBody here fits.left
        fun k member => first k (List.mem_append_left _ member)
      have more := bindContinuations_gives rest others localEnv there fits.right
        fun k member => first k (List.mem_append_right _ member)
      exact one.bind (more.map (List.cons (BoundBlock.mk site types boundBody)))
end

end Bodies

end Shady.Bind
