import Shady.Frontend.LexicalScoping

/-!
# What a run of the binding pass remembers

Whatever is bound without a `mem` is what the rewriter remembers for the name, from then on; and
every variable is stored the first result.
-/

set_option autoImplicit false

set_option linter.unusedSectionVars false

namespace Shady.Bind

open Scoping Stateful

/-- The names of a list of occurrences are remembered, those without a `mem`. -/
def State.Knows (st : State) (occurrences : List Occurrence) : Prop :=
  ∀ o ∈ occurrences, o.hasMem = false → st.processed.lookup o.name = some o.resolved

/-- What is said here of one declaration holds for all that have their contents. -/
def State.Steady (st : State) : Prop :=
  ∀ i decl, (i, decl) ∈ st.defined →
    st.Knows decl.occurrences ∧ ∀ k ∈ decl.content.stored, k = 0

/-- Nothing that was remembered is forgotten. -/
structure State.Grows (st st' : State) : Prop where
  remembers : ∀ name resolved, st.processed.lookup name = some resolved →
    st'.processed.lookup name = some resolved
  steady : st.Steady → st'.Steady

theorem State.Grows.refl (st : State) : st.Grows st := ⟨fun _ _ found => found, id⟩

theorem State.Grows.trans {st st' st'' : State} (first : st.Grows st') (next : st'.Grows st'') :
    st.Grows st'' :=
  ⟨fun name resolved found => next.remembers name resolved (first.remembers name resolved found),
    fun steady => next.steady (first.steady steady)⟩

theorem State.knows_nil (st : State) : st.Knows [] := fun _ member => absurd member List.not_mem_nil

theorem State.Knows.append {st : State} {first next : List Occurrence} (left : st.Knows first)
    (right : st.Knows next) : st.Knows (first ++ next) := fun o member =>
  (List.mem_append.mp member).elim (left o) (right o)

theorem State.Knows.grows {st st' : State} {occurrences : List Occurrence}
    (known : st.Knows occurrences) (grows : st.Grows st') : st'.Knows occurrences :=
  fun o member noMem => grows.remembers _ _ (known o member noMem)

/-- To remember more changes no declaration. -/
theorem State.Grows.of_remembers {st st' : State} (same : st'.defined = st.defined)
    (remembers : ∀ name resolved, st.processed.lookup name = some resolved →
      st'.processed.lookup name = some resolved) : st.Grows st' := by
  refine ⟨remembers, ?_⟩
  intro steady i decl member
  rw [same] at member
  have here := steady i decl member
  exact ⟨fun o inside noMem => remembers _ _ (here.1 o inside noMem), here.2⟩

theorem registerProcessed_grows {name : Name} {resolved : Resolved} {st st' : State}
    (run : (registerProcessed name resolved).run st = .ok ((), st')) :
    st.Grows st' ∧ st'.processed.lookup name = some resolved := by
  rw [registerProcessed, run_bind_eq_ok] at run
  obtain ⟨_, _, got, run⟩ := run
  obtain ⟨rfl, rfl⟩ := run_get_eq_ok.mp got
  cases found : st.processed.lookup name with
  | some other =>
      simp only [found] at run
      by_cases same : other = resolved
      · rw [if_pos same] at run
        obtain ⟨-, rfl⟩ := run_pure_eq_ok.mp run
        exact ⟨State.Grows.refl st, same ▸ found⟩
      · rw [if_neg same] at run
        exact nomatch run
  | none =>
      simp only [found] at run
      rw [run_modify_eq_ok.mp run]
      constructor
      · refine State.Grows.of_remembers ?_ ?_
        · rfl
        intro other resolved' found'
        have differ : other ≠ name := by
          rintro rfl
          rw [found] at found'
          exact nomatch found'
        rw [List.lookup_cons, beq_eq_false_iff_ne.mpr differ]
        exact found'
      · rw [List.lookup_cons, beq_self_eq_true]

theorem occurrencesAll_append (first next : List BoundExpr) :
    occurrencesAll (first ++ next) = occurrencesAll first ++ occurrencesAll next := by
  induction first with
  | nil => rfl
  | cons e rest ih => rw [List.cons_append, occurrencesAll, occurrencesAll, ih, List.append_assoc]

section Expressions

variable {top : Name → M Resolved}

/-- The declarations are looked up without forgetting anything. -/
def TopGrows (top : Name → M Resolved) : Prop :=
  ∀ name st resolved st', (top name).run st = .ok (resolved, st') → st.Grows st'

variable (topGrows : TopGrows top) (env : Env)

include topGrows

theorem resolveUsingName_grows {name : Name} {st st' : State} {resolved : Resolved}
    (run : (resolveUsingName top env name).run st = .ok (resolved, st')) : st.Grows st' := by
  rw [resolveUsingName] at run
  cases found : env.find? (fun entry => entry.1 = name) with
  | some entry =>
      rw [found] at run
      obtain ⟨-, rfl⟩ := run_pure_eq_ok.mp run
      exact State.Grows.refl st
  | none =>
      rw [found] at run
      exact topGrows name st resolved st' run

theorem bindUnbound_knows {hasMem : Bool} {name : Name} {st st' : State} {b : BoundExpr}
    (run : (bindUnbound top env hasMem name).run st = .ok (b, st')) :
    st.Grows st' ∧ st'.Knows b.occurrences := by
  cases hasMem with
  | true =>
      obtain ⟨resolved, _, resolves, done⟩ := run_bind_eq_ok.mp run
      obtain ⟨rfl, rfl⟩ := run_pure_eq_ok.mp done
      refine ⟨resolveUsingName_grows topGrows env resolves, ?_⟩
      intro o member noMem
      cases List.mem_singleton.mp member
      exact nomatch noMem
  | false =>
      obtain ⟨_, _, got, run⟩ := run_bind_eq_ok.mp run
      obtain ⟨rfl, rfl⟩ := run_get_eq_ok.mp got
      cases found : st.processed.lookup name with
      | some resolved =>
          simp only [found] at run
          obtain ⟨rfl, rfl⟩ := run_pure_eq_ok.mp run
          refine ⟨State.Grows.refl st, ?_⟩
          intro o member _
          cases List.mem_singleton.mp member
          exact found
      | none =>
          simp only [found] at run
          obtain ⟨resolved, next, resolves, run⟩ := run_bind_eq_ok.mp run
          obtain ⟨⟨⟩, _, registers, done⟩ := run_bind_eq_ok.mp run
          obtain ⟨rfl, rfl⟩ := run_pure_eq_ok.mp done
          obtain ⟨grows, remembered⟩ := registerProcessed_grows registers
          refine ⟨(resolveUsingName_grows topGrows env resolves).trans grows, ?_⟩
          intro o member _
          cases List.mem_singleton.mp member
          exact remembered

mutual
theorem bindValue_knows : ∀ (e : Expr) {st st' : State} {b : BoundExpr},
    (bindValue top env e).run st = .ok (b, st') → st.Grows st' ∧ st'.Knows b.occurrences
  | .leaf _, st, _, _, run => by
      obtain ⟨rfl, rfl⟩ := run_pure_eq_ok.mp run
      exact ⟨State.Grows.refl st, State.knows_nil st⟩
  | .param _ _, st, _, _, run => by
      obtain ⟨rfl, rfl⟩ := run_pure_eq_ok.mp run
      exact ⟨State.Grows.refl st, State.knows_nil st⟩
  | .unbound hasMem name, _, _, _, run => bindUnbound_knows topGrows env run
  | .dereference ptr, _, _, _, run => by
      obtain ⟨_, _, inner, done⟩ := run_bind_eq_ok.mp run
      obtain ⟨rfl, rfl⟩ := run_pure_eq_ok.mp done
      have kept := bindValue_knows ptr inner
      exact kept
  | .addrOf place, _, _, _, run => by
      obtain ⟨address, _, inner, done⟩ := run_bind_eq_ok.mp run
      cases address with
      | none => exact nomatch done
      | some ptr =>
          obtain ⟨rfl, rfl⟩ := run_pure_eq_ok.mp done
          exact getNodeAddressMaybe_knows place inner
  | .assign target value, _, _, _, run => by
      obtain ⟨address, _, inner, run⟩ := run_bind_eq_ok.mp run
      cases address with
      | none => exact nomatch run
      | some ptr =>
          obtain ⟨_, _, ofValue, done⟩ := run_bind_eq_ok.mp run
          obtain ⟨rfl, rfl⟩ := run_pure_eq_ok.mp done
          have first := getNodeAddressMaybe_knows target inner
          have next := bindValue_knows value ofValue
          exact ⟨first.1.trans next.1, (first.2.grows next.1).append next.2⟩
  | .subscript base index, _, _, _, run => by
      obtain ⟨address, _, inner, run⟩ := run_bind_eq_ok.mp run
      have first := getNodeAddressMaybe_knows base inner
      cases address with
      | none =>
          obtain ⟨_, _, ofBase, run⟩ := run_bind_eq_ok.mp run
          obtain ⟨_, _, ofIndex, done⟩ := run_bind_eq_ok.mp run
          obtain ⟨rfl, rfl⟩ := run_pure_eq_ok.mp done
          have second := bindValue_knows base ofBase
          have third := bindValue_knows index ofIndex
          exact ⟨first.1.trans (second.1.trans third.1), (second.2.grows third.1).append third.2⟩
      | some ptr =>
          obtain ⟨_, _, ofIndex, done⟩ := run_bind_eq_ok.mp run
          obtain ⟨rfl, rfl⟩ := run_pure_eq_ok.mp done
          have next := bindValue_knows index ofIndex
          exact ⟨first.1.trans next.1, (first.2.grows next.1).append next.2⟩
  | .node _ _ operands, _, _, _, run => by
      obtain ⟨_, _, inner, done⟩ := run_bind_eq_ok.mp run
      obtain ⟨rfl, rfl⟩ := run_pure_eq_ok.mp done
      exact bindValues_knows operands inner

theorem getNodeAddressMaybe_knows : ∀ (e : Expr) {st st' : State} {b : Option BoundExpr},
    (getNodeAddressMaybe top env e).run st = .ok (b, st') →
      st.Grows st' ∧ st'.Knows (b.elim [] BoundExpr.occurrences)
  | .unbound _ name, _, st', _, run => by
      obtain ⟨entry, _, resolves, done⟩ := run_bind_eq_ok.mp run
      obtain ⟨rfl, rfl⟩ := run_pure_eq_ok.mp done
      refine ⟨resolveUsingName_grows topGrows env resolves, ?_⟩
      cases entry.isVar with
      | false => exact State.knows_nil _
      | true =>
          intro o member noMem
          cases List.mem_singleton.mp member
          exact nomatch noMem
  | .dereference ptr, _, _, _, run => by
      obtain ⟨_, _, inner, done⟩ := run_bind_eq_ok.mp run
      obtain ⟨rfl, rfl⟩ := run_pure_eq_ok.mp done
      exact bindValue_knows ptr inner
  | .subscript base index, _, _, _, run => by
      obtain ⟨address, _, inner, run⟩ := run_bind_eq_ok.mp run
      have first := getNodeAddressMaybe_knows base inner
      cases address with
      | none =>
          obtain ⟨rfl, rfl⟩ := run_pure_eq_ok.mp run
          exact first
      | some ptr =>
          obtain ⟨_, _, ofIndex, done⟩ := run_bind_eq_ok.mp run
          obtain ⟨rfl, rfl⟩ := run_pure_eq_ok.mp done
          have next := bindValue_knows index ofIndex
          exact ⟨first.1.trans next.1, (first.2.grows next.1).append next.2⟩
  | .leaf _, st, _, _, run => by
      obtain ⟨rfl, rfl⟩ := run_pure_eq_ok.mp run
      exact ⟨State.Grows.refl st, State.knows_nil st⟩
  | .param _ _, st, _, _, run => by
      obtain ⟨rfl, rfl⟩ := run_pure_eq_ok.mp run
      exact ⟨State.Grows.refl st, State.knows_nil st⟩
  | .addrOf _, st, _, _, run => by
      obtain ⟨rfl, rfl⟩ := run_pure_eq_ok.mp run
      exact ⟨State.Grows.refl st, State.knows_nil st⟩
  | .assign _ _, st, _, _, run => by
      obtain ⟨rfl, rfl⟩ := run_pure_eq_ok.mp run
      exact ⟨State.Grows.refl st, State.knows_nil st⟩
  | .node _ _ _, st, _, _, run => by
      obtain ⟨rfl, rfl⟩ := run_pure_eq_ok.mp run
      exact ⟨State.Grows.refl st, State.knows_nil st⟩

theorem bindValues_knows : ∀ (es : List Expr) {st st' : State} {bs : List BoundExpr},
    (bindValues top env es).run st = .ok (bs, st') → st.Grows st' ∧ st'.Knows (occurrencesAll bs)
  | [], st, _, _, run => by
      obtain ⟨rfl, rfl⟩ := run_pure_eq_ok.mp run
      exact ⟨State.Grows.refl st, State.knows_nil st⟩
  | e :: rest, _, _, _, run => by
      obtain ⟨_, _, here, run⟩ := run_bind_eq_ok.mp run
      obtain ⟨_, _, there, done⟩ := run_bind_eq_ok.mp run
      obtain ⟨rfl, rfl⟩ := run_pure_eq_ok.mp done
      have first := bindValue_knows e here
      have next := bindValues_knows rest there
      exact ⟨first.1.trans next.1, (first.2.grows next.1).append next.2⟩
end

theorem bindAlone_knows {e : Expr} {st st' : State} {bs : List BoundExpr}
    (run : (do return [← bindValue top env e] : M (List BoundExpr)).run st = .ok (bs, st')) :
    st.Grows st' ∧ st'.Knows (occurrencesAll bs) := by
  obtain ⟨_, _, inner, done⟩ := run_bind_eq_ok.mp run
  obtain ⟨rfl, rfl⟩ := run_pure_eq_ok.mp done
  have kept := bindValue_knows topGrows env e inner
  exact ⟨kept.1, kept.2.append (State.knows_nil _)⟩

mutual
theorem bindDiscarded_knows : ∀ (e : Expr) {st st' : State} {bs : List BoundExpr},
    (bindDiscarded top env e).run st = .ok (bs, st') → st.Grows st' ∧ st'.Knows (occurrencesAll bs)
  | .leaf _, st, _, _, run => by
      obtain ⟨rfl, rfl⟩ := run_pure_eq_ok.mp run
      exact ⟨State.Grows.refl st, State.knows_nil st⟩
  | .param _ _, st, _, _, run => by
      obtain ⟨rfl, rfl⟩ := run_pure_eq_ok.mp run
      exact ⟨State.Grows.refl st, State.knows_nil st⟩
  | .unbound _ _, st, _, _, run => by
      obtain ⟨rfl, rfl⟩ := run_pure_eq_ok.mp run
      exact ⟨State.Grows.refl st, State.knows_nil st⟩
  | .dereference _, _, _, _, run => bindAlone_knows topGrows env run
  | .addrOf _, _, _, _, run => bindAlone_knows topGrows env run
  | .assign _ _, _, _, _, run => bindAlone_knows topGrows env run
  | .subscript _ _, _, _, _, run => bindAlone_knows topGrows env run
  | .node true _ _, _, _, _, run => bindAlone_knows topGrows env run
  | .node false _ operands, _, _, _, run => bindDiscardedAll_knows operands run

theorem bindDiscardedAll_knows : ∀ (es : List Expr) {st st' : State} {bs : List BoundExpr},
    (bindDiscardedAll top env es).run st = .ok (bs, st') →
      st.Grows st' ∧ st'.Knows (occurrencesAll bs)
  | [], st, _, _, run => by
      obtain ⟨rfl, rfl⟩ := run_pure_eq_ok.mp run
      exact ⟨State.Grows.refl st, State.knows_nil st⟩
  | e :: rest, _, _, _, run => by
      obtain ⟨_, _, here, run⟩ := run_bind_eq_ok.mp run
      obtain ⟨_, _, there, done⟩ := run_bind_eq_ok.mp run
      obtain ⟨rfl, rfl⟩ := run_pure_eq_ok.mp done
      have first := bindDiscarded_knows e here
      have next := bindDiscardedAll_knows rest there
      rw [occurrencesAll_append]
      exact ⟨first.1.trans next.1, (first.2.grows next.1).append next.2⟩
end

end Expressions

/-! ## Bodies -/

section Bodies

variable {top : Name → M Resolved} (topGrows : TopGrows top)

include topGrows

theorem bindVariables_knows (site : Nat) : ∀ (variables' : List (Name × Expr)) (env : Env) (i : Nat)
    {st st' : State} {slots : List Slot} {env' : Env},
    (bindVariables top site env i variables').run st = .ok ((slots, env'), st') →
      st.Grows st' ∧ st'.Knows (slotOccurrences slots) ∧ ∀ k ∈ slots.map Slot.stored, k = 0
  | [], env, i, st, _, _, _, run => by
      obtain ⟨same, rfl⟩ := run_pure_eq_ok.mp run
      cases same
      exact ⟨State.Grows.refl st, State.knows_nil st, nofun⟩
  | (name, type) :: rest, env, i, _, _, _, _, run => by
      obtain ⟨_, _, here, run⟩ := run_bind_eq_ok.mp run
      obtain ⟨⟨_, _⟩, _, there, done⟩ := run_bind_eq_ok.mp run
      obtain ⟨same, rfl⟩ := run_pure_eq_ok.mp done
      cases same
      have first := bindValue_knows topGrows env type here
      have next := bindVariables_knows site rest _ _ there
      refine ⟨first.1.trans next.1, (first.2.grows next.1).append next.2.1, ?_⟩
      intro k member
      cases List.mem_cons.mp member with
      | inl zero => exact zero
      | inr later => exact next.2.2 k later

/-- What the types of the parameters of continuations name. -/
theorem bindContinuationNames_knows : ∀ (blocks : List Block) (env : Env) {st st' : State}
    {types : List (List BoundExpr)} {env' : Env},
    (bindContinuationNames top env blocks).run st = .ok ((types, env'), st') →
      st.Grows st' ∧ st'.Knows (types.flatMap occurrencesAll)
  | [], env, st, _, _, _, run => by
      obtain ⟨same, rfl⟩ := run_pure_eq_ok.mp run
      cases same
      exact ⟨State.Grows.refl st, State.knows_nil st⟩
  | block :: rest, env, _, _, _, _, run => by
      obtain ⟨_, _, here, run⟩ := run_bind_eq_ok.mp run
      cases named : block.name with
      | none =>
          simp only [named] at run
          exact nomatch run
      | some name =>
          simp only [named] at run
          obtain ⟨⟨_, _⟩, _, there, done⟩ := run_bind_eq_ok.mp run
          obtain ⟨same, rfl⟩ := run_pure_eq_ok.mp done
          cases same
          have first := bindValues_knows topGrows env _ here
          have next := bindContinuationNames_knows rest _ there
          exact ⟨first.1.trans next.1, (first.2.grows next.1).append next.2⟩

mutual
theorem bindBody_knows : ∀ (body : Body) (env : Env) {st st' : State} {b : BoundBody},
    (bindBody top env body).run st = .ok (b, st') →
      st.Grows st' ∧ st'.Knows b.occurrences ∧ ∀ k ∈ b.stored, k = 0
  | .eval e rest, env, _, _, _, run => by
      obtain ⟨_, _, here, run⟩ := run_bind_eq_ok.mp run
      obtain ⟨_, _, there, done⟩ := run_bind_eq_ok.mp run
      obtain ⟨rfl, rfl⟩ := run_pure_eq_ok.mp done
      have first := bindDiscarded_knows topGrows env e here
      have next := bindBody_knows rest env there
      exact ⟨first.1.trans next.1, (first.2.grows next.1).append next.2.1, next.2.2⟩
  | .bindVal site value names rest, env, _, _, _, run => by
      obtain ⟨_, _, here, run⟩ := run_bind_eq_ok.mp run
      obtain ⟨_, _, there, done⟩ := run_bind_eq_ok.mp run
      obtain ⟨rfl, rfl⟩ := run_pure_eq_ok.mp done
      have first := bindValue_knows topGrows env value here
      have next := bindBody_knows rest _ there
      exact ⟨first.1.trans next.1, (first.2.grows next.1).append next.2.1, next.2.2⟩
  | .bindVar site value names types rest, env, _, _, _, run => by
      obtain ⟨_, _, here, run⟩ := run_bind_eq_ok.mp run
      obtain ⟨⟨_, _⟩, _, declared, run⟩ := run_bind_eq_ok.mp run
      obtain ⟨_, _, there, done⟩ := run_bind_eq_ok.mp run
      obtain ⟨rfl, rfl⟩ := run_pure_eq_ok.mp done
      have first := bindValue_knows topGrows env value here
      have second := bindVariables_knows topGrows site _ env 0 declared
      have third := bindBody_knows rest _ there
      refine ⟨first.1.trans (second.1.trans third.1), ?_, ?_⟩
      · exact ((first.2.grows (second.1.trans third.1)).append (second.2.1.grows third.1)).append
          third.2.1
      · intro k member
        exact (List.mem_append.mp member).elim (second.2.2 k) (third.2.2 k)
  | .construct tag operands blocks tail, env, _, _, _, run => by
      obtain ⟨_, _, ofOperands, run⟩ := run_bind_eq_ok.mp run
      obtain ⟨_, _, ofBlocks, run⟩ := run_bind_eq_ok.mp run
      obtain ⟨_, _, ofTail, done⟩ := run_bind_eq_ok.mp run
      obtain ⟨rfl, rfl⟩ := run_pure_eq_ok.mp done
      have first := bindValues_knows topGrows env operands ofOperands
      have second := bindBlocks_knows blocks env ofBlocks
      have third := bindBlock_knows tail env ofTail
      refine ⟨first.1.trans (second.1.trans third.1), ?_, ?_⟩
      · exact ((first.2.grows (second.1.trans third.1)).append (second.2.1.grows third.1)).append
          third.2.1
      · intro k member
        exact (List.mem_append.mp member).elim (second.2.2 k) (third.2.2 k)
  | .finish continuations terminator, env, _, _, _, run => by
      obtain ⟨⟨_, _⟩, _, named, run⟩ := run_bind_eq_ok.mp run
      obtain ⟨_, _, ofBodies, run⟩ := run_bind_eq_ok.mp run
      obtain ⟨_, _, ofTerminator, done⟩ := run_bind_eq_ok.mp run
      obtain ⟨rfl, rfl⟩ := run_pure_eq_ok.mp done
      have first := bindContinuationNames_knows topGrows continuations env named
      have second := bindContinuations_knows continuations _ _ ofBodies first.2
      have third := bindValue_knows topGrows _ terminator ofTerminator
      exact ⟨first.1.trans (second.1.trans third.1), (second.2.1.grows third.1).append third.2,
        second.2.2⟩

theorem bindBlock_knows : ∀ (block : Block) (env : Env) {st st' : State} {b : BoundBlock},
    (bindBlock top env block).run st = .ok (b, st') →
      st.Grows st' ∧ st'.Knows b.occurrences ∧ ∀ k ∈ b.stored, k = 0
  | .mk site name params body, env, _, _, _, run => by
      obtain ⟨_, _, here, run⟩ := run_bind_eq_ok.mp run
      obtain ⟨_, _, there, done⟩ := run_bind_eq_ok.mp run
      obtain ⟨rfl, rfl⟩ := run_pure_eq_ok.mp done
      have first := bindValues_knows topGrows env _ here
      have next := bindBody_knows body _ there
      exact ⟨first.1.trans next.1, (first.2.grows next.1).append next.2.1, next.2.2⟩

theorem bindBlocks_knows : ∀ (blocks : List Block) (env : Env) {st st' : State}
    {bs : List BoundBlock}, (bindBlocks top env blocks).run st = .ok (bs, st') →
      st.Grows st' ∧ st'.Knows (blockOccurrences bs) ∧ ∀ k ∈ blockStored bs, k = 0
  | [], env, st, _, _, run => by
      obtain ⟨rfl, rfl⟩ := run_pure_eq_ok.mp run
      exact ⟨State.Grows.refl st, State.knows_nil st, nofun⟩
  | block :: rest, env, _, _, _, run => by
      obtain ⟨_, _, here, run⟩ := run_bind_eq_ok.mp run
      obtain ⟨_, _, there, done⟩ := run_bind_eq_ok.mp run
      obtain ⟨rfl, rfl⟩ := run_pure_eq_ok.mp done
      have first := bindBlock_knows block env here
      have next := bindBlocks_knows rest env there
      refine ⟨first.1.trans next.1, (first.2.1.grows next.1).append next.2.1, ?_⟩
      intro k member
      exact (List.mem_append.mp member).elim (first.2.2 k) (next.2.2 k)

theorem bindContinuations_knows : ∀ (blocks : List Block) (env : Env)
    (types : List (List BoundExpr)) {st st' : State} {bs : List BoundBlock},
    (bindContinuations top env types blocks).run st = .ok (bs, st') →
      st.Knows (types.flatMap occurrencesAll) →
      st.Grows st' ∧ st'.Knows (blockOccurrences bs) ∧ ∀ k ∈ blockStored bs, k = 0
  | [], env, types, st, _, _, run, _ => by
      cases types <;>
        obtain ⟨rfl, rfl⟩ := run_pure_eq_ok.mp run <;>
        exact ⟨State.Grows.refl st, State.knows_nil st, nofun⟩
  | _ :: _, env, [], st, _, _, run, _ => by
      obtain ⟨rfl, rfl⟩ := run_pure_eq_ok.mp run
      exact ⟨State.Grows.refl st, State.knows_nil st, nofun⟩
  | .mk site name params body :: rest, env, types :: others, st, _, _, run, known => by
      obtain ⟨_, _, here, run⟩ := run_bind_eq_ok.mp run
      obtain ⟨_, _, there, done⟩ := run_bind_eq_ok.mp run
      obtain ⟨rfl, rfl⟩ := run_pure_eq_ok.mp done
      have ofTypes : st.Knows (occurrencesAll types) := fun o member =>
        known o (List.mem_append.mpr (.inl member))
      have ofOthers : st.Knows (others.flatMap occurrencesAll) := fun o member =>
        known o (List.mem_append.mpr (.inr member))
      have first := bindBody_knows body _ here
      have next := bindContinuations_knows rest env others there (ofOthers.grows first.1)
      refine ⟨first.1.trans next.1, ?_, ?_⟩
      · exact ((ofTypes.grows (first.1.trans next.1)).append (first.2.1.grows next.1)).append next.2.1
      · intro k member
        exact (List.mem_append.mp member).elim (first.2.2 k) (next.2.2 k)
end

end Bodies

/-! ## Declarations -/

theorem registerDecl_grows {i : Nat} {st st' : State}
    (run : (registerDecl i).run st = .ok ((), st')) : st.Grows st' := by
  obtain ⟨_, _, got, run⟩ := run_bind_eq_ok.mp run
  obtain ⟨rfl, rfl⟩ := run_get_eq_ok.mp got
  by_cases twice : i ∈ st.newDecls
  · rw [if_pos twice] at run
    exact nomatch run
  · rw [if_neg twice] at run
    rw [run_modify_eq_ok.mp run]
    exact State.Grows.of_remembers rfl fun _ _ found => found

theorem bindOptional_knows {top : Name → M Resolved} (topGrows : TopGrows top) {e : Option Expr}
    {st st' : State} {v : Option BoundExpr} (run : (bindOptional top e).run st = .ok (v, st')) :
    st.Grows st' ∧ st'.Knows (v.elim [] BoundExpr.occurrences) := by
  cases e with
  | none =>
      obtain ⟨rfl, rfl⟩ := run_pure_eq_ok.mp run
      exact ⟨State.Grows.refl st, State.knows_nil st⟩
  | some e =>
      obtain ⟨_, _, inner, done⟩ := run_bind_eq_ok.mp run
      obtain ⟨rfl, rfl⟩ := run_pure_eq_ok.mp done
      exact bindValue_knows topGrows [] e inner

theorem bindContent_knows {top : Name → M Resolved} (topGrows : TopGrows top) {kind : DeclKind}
    {st st' : State} {content : BoundContent}
    (run : (bindContent top kind).run st = .ok (content, st')) :
    st.Grows st' ∧ st'.Knows content.occurrences ∧ ∀ k ∈ content.stored, k = 0 := by
  cases kind with
  | globalVariable type init =>
      obtain ⟨_, _, inner, done⟩ := run_bind_eq_ok.mp run
      obtain ⟨rfl, rfl⟩ := run_pure_eq_ok.mp done
      have kept := bindOptional_knows topGrows inner
      exact ⟨kept.1, kept.2, nofun⟩
  | constant typeHint value =>
      obtain ⟨_, _, inner, done⟩ := run_bind_eq_ok.mp run
      obtain ⟨rfl, rfl⟩ := run_pure_eq_ok.mp done
      have kept := bindValue_knows topGrows [] value inner
      exact ⟨kept.1, kept.2, nofun⟩
  | nominalType body =>
      obtain ⟨_, _, inner, done⟩ := run_bind_eq_ok.mp run
      obtain ⟨rfl, rfl⟩ := run_pure_eq_ok.mp done
      have kept := bindValue_knows topGrows [] body inner
      exact ⟨kept.1, kept.2, nofun⟩
  | function site params returnTypes body =>
      cases body with
      | none =>
          obtain ⟨rfl, rfl⟩ := run_pure_eq_ok.mp run
          exact ⟨State.Grows.refl st, State.knows_nil st, nofun⟩
      | some body =>
          obtain ⟨_, _, inner, done⟩ := run_bind_eq_ok.mp run
          obtain ⟨rfl, rfl⟩ := run_pure_eq_ok.mp done
          have kept := bindBody_knows topGrows body _ inner
          exact kept

theorem rewriteDecl_grows {top : Name → M Resolved} (topGrows : TopGrows top) {i : Nat} {decl : Decl}
    {st st' : State} (run : (rewriteDecl top i decl).run st = .ok ((), st')) : st.Grows st' := by
  obtain ⟨signature, _, ofSignature, run⟩ := run_bind_eq_ok.mp run
  obtain ⟨⟨⟩, _, registers, run⟩ := run_bind_eq_ok.mp run
  obtain ⟨content, before, ofContent, defines⟩ := run_bind_eq_ok.mp run
  have first := bindValues_knows topGrows [] _ ofSignature
  have second := registerDecl_grows registers
  have third := bindContent_knows topGrows ofContent
  apply (first.1.trans (second.trans third.1)).trans
  rw [run_modify_eq_ok.mp defines]
  refine ⟨fun _ _ found => found, ?_⟩
  intro steady j other member
  cases List.mem_append.mp member with
  | inl earlier => exact steady j other earlier
  | inr here =>
      cases List.mem_singleton.mp here
      exact ⟨(first.2.grows (second.trans third.1)).append third.2.1, third.2.2⟩

theorem findDecl_grows (m : Module) {declare : Nat → M Unit}
    (declareGrows : ∀ i st st', (declare i).run st = .ok ((), st') → st.Grows st') {name : Name}
    {st st' : State} {i : Nat} (run : (findDecl m declare name).run st = .ok (i, st')) :
    st.Grows st' := by
  obtain ⟨_, _, got, run⟩ := run_bind_eq_ok.mp run
  obtain ⟨rfl, rfl⟩ := run_get_eq_ok.mp got
  cases declared : st.newDecls.find? (m.named name) with
  | some j =>
      simp only [declared] at run
      obtain ⟨-, rfl⟩ := run_pure_eq_ok.mp run
      exact State.Grows.refl st
  | none =>
      simp only [declared] at run
      cases index : m.findIdx? (·.name == name) with
      | none =>
          simp only [index] at run
          exact nomatch run
      | some j =>
          simp only [index] at run
          obtain ⟨⟨⟩, _, declares, done⟩ := run_bind_eq_ok.mp run
          obtain ⟨-, rfl⟩ := run_pure_eq_ok.mp done
          exact declareGrows j st _ declares

theorem resolveTop_grows (m : Module) {declare : Nat → M Unit}
    (declareGrows : ∀ i st st', (declare i).run st = .ok ((), st') → st.Grows st') :
    TopGrows (resolveTop m declare) := by
  intro name st resolved st' run
  obtain ⟨i, next, finds, run⟩ := run_bind_eq_ok.mp run
  have grows := findDecl_grows m declareGrows finds
  cases found : m[i]? with
  | none =>
      simp only [found] at run
      exact nomatch run
  | some decl =>
      simp only [found] at run
      obtain ⟨-, rfl⟩ := run_pure_eq_ok.mp run
      exact grows

theorem bindDecl_grows (m : Module) (fuel : Nat) : ∀ i st st',
    (bindDecl m fuel i).run st = .ok ((), st') → st.Grows st' := by
  induction fuel with
  | zero =>
      intro i st st' run
      exact nomatch run
  | succ fuel ih =>
      intro i st st' run
      obtain ⟨_, _, got, run⟩ := run_bind_eq_ok.mp run
      obtain ⟨rfl, rfl⟩ := run_get_eq_ok.mp got
      by_cases declared : i ∈ st.newDecls
      · simp only [if_pos declared] at run
        obtain ⟨-, rfl⟩ := run_pure_eq_ok.mp run
        exact State.Grows.refl st
      · simp only [if_neg declared] at run
        cases found : m[i]? with
        | none =>
            simp only [found] at run
            exact nomatch run
        | some decl =>
            simp only [found] at run
            exact rewriteDecl_grows (resolveTop_grows m ih) run

/-- At the end of a run, the names without a `mem` are what is remembered, and every variable is
stored the first result. -/
theorem slimPassBind_steady {m : Module} {st : State} (run : slimPassBind m = .ok st) : st.Steady := by
  obtain ⟨⟨_, _⟩, ran, done⟩ := Fallible.bind_eq_ok.mp run
  cases done
  have grows := forM_keeps State.Grows.refl State.Grows.trans (bindDecl_grows m (m.length + 1)) ran
  exact grows.steady fun i decl member => absurd member List.not_mem_nil

end Shady.Bind
