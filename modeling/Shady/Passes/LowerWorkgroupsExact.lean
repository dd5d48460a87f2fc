import Mathlib.Algebra.Group.Nat.Defs
import Mathlib.Data.Fintype.Basic
import Mathlib.Tactic.FinCases
import Shady.Passes.LowerWorkgroups

/-!
# Every invocation of a launch

The wrapper runs every invocation of the launch grid once if and only if the subgroup size
divides the first workgroup size, or there are no workgroups.
-/

set_option autoImplicit false

namespace Shady.Workgroups

open Imperative

/-! ## The turns of the loops -/

namespace Env

@[simp]
theorem set_numWorkgroups (env : Env) (scope : Scope) (dim : Dim) (value : Word) :
    (env.set scope dim value).numWorkgroups = env.numWorkgroups := rfl

@[simp]
theorem set_args (env : Env) (scope : Scope) (dim : Dim) (value : Word) :
    (env.set scope dim value).args = env.args := rfl

@[simp]
theorem set_lane (env : Env) (scope : Scope) (dim : Dim) (value : Word) :
    (env.set scope dim value).lane = env.lane := rfl

@[simp]
theorem set_counters_self (env : Env) (scope : Scope) (dim : Dim) (value : Word) :
    (env.set scope dim value).counters scope dim = value := if_pos ⟨rfl, rfl⟩

theorem set_counters_of_ne (env : Env) (value : Word) {scope s : Scope} {dim d : Dim}
    (other : (s, d) ≠ (scope, dim)) :
    (env.set scope dim value).counters s d = env.counters s d :=
  if_neg fun same => other (Prod.ext same.1 same.2)

end Env

namespace Config
variable (config : Config)

/-- The limit of a loop, which no counter changes. -/
def limit (numWorkgroups : Dim → Word) : Scope → Dim → Word
  | .workgroup, dim => numWorkgroups dim
  | .subgroup, dim => config.numSubgroups dim

theorem maxes_eval (env : Env) (scope : Scope) (dim : Dim) :
    (config.maxes scope dim).eval env = config.limit env.numWorkgroups scope dim := by
  cases scope <;> rfl

/-- What the kernel sees with these counters. -/
def callOf (inner : String) (params : Nat) (env : Env) : Call where
  callee := inner
  args := (List.range params).map env.args
  builtins
    | .workgroupId, dim => env.counters .workgroup dim
    | .localInvocationId, dim => (config.localId dim).eval env
    | .globalInvocationId, dim => (config.globalId dim).eval env

/-- The counters of every turn, in the order of the loops. -/
def turns : List (Scope × Dim) → Env → List Env
  | [], env => [env]
  | (scope, dim) :: deeper, env =>
      (List.range (config.limit env.numWorkgroups scope dim).toNat).flatMap fun i =>
        turns deeper (env.set scope dim (BitVec.ofNat 32 i))

theorem callInner_exec (inner : String) (params : Nat) (rest : Code) (bound : Nat) (env : Env)
    (state : State) :
    ∃ builtins, (config.callInner inner params rest).exec bound env state =
      rest.exec bound env ⟨builtins, state.calls ++ [config.callOf inner params env]⟩ := by
  have seen : (((state.store .workgroupId fun dim => (Expr.param .workgroup dim).eval env).store
      .localInvocationId fun dim => (config.localId dim).eval env).store
        .globalInvocationId fun dim => (config.globalId dim).eval env).builtins =
      (config.callOf inner params env).builtins := by
    funext builtin
    cases builtin <;> rfl
  refine ⟨(config.callOf inner params env).builtins, ?_⟩
  rw [callInner, Code.exec, Code.exec, Code.exec, Code.exec, State.call, seen]
  rfl

/-- The loops call the kernel once for each turn, and go on behind it. -/
theorem loops_exec (inner : String) (params : Nat) {bound : Nat} (enough : 2 ^ 32 ≤ bound)
    (depths : List (Scope × Dim)) : ∀ (rest : Code) (env : Env) (state : State),
    ∃ builtins, (config.loops inner params depths rest).exec bound env state =
      rest.exec bound env
        ⟨builtins, state.calls ++ (config.turns depths env).map (config.callOf inner params)⟩ := by
  induction depths with
  | nil => exact fun rest env state => config.callInner_exec inner params rest bound env state
  | cons depth deeper ih =>
      intro rest env state
      obtain ⟨scope, dim⟩ := depth
      let body := addBoundsCheck (.param scope dim) (config.maxes scope dim)
        (config.loops inner params deeper (.mergeContinue (.add (.param scope dim) (.literal 1))))
      let turn := fun now : Word × State =>
        (body.exec bound (env.set scope dim now.1) now.2).map turnOf
      have step : ∀ i, i < config.limit env.numWorkgroups scope dim → ∀ s : State, ∃ s' : State,
          turn (i, s) = some (.inl (i + 1#32, s')) ∧
            s'.calls = s.calls ++
              (config.turns deeper (env.set scope dim i)).map (config.callOf inner params) := by
        intro i below s
        obtain ⟨builtins, ran⟩ :=
          ih (.mergeContinue (.add (.param scope dim) (.literal 1))) (env.set scope dim i) s
        refine ⟨⟨builtins, _⟩, ?_, rfl⟩
        simp only [turn, body]
        rw [addBoundsCheck, Code.exec, maxes_eval, if_neg, ran]
        · simp [Code.exec, Expr.eval, turnOf]
        · simpa [Expr.eval] using below
      have last : ∀ s : State, turn (config.limit env.numWorkgroups scope dim, s) =
          some (.inr (.broken, s)) := by
        intro s
        simp only [turn, body]
        rw [addBoundsCheck, Code.exec, maxes_eval, if_pos]
        · rfl
        · simp [Expr.eval]
      obtain ⟨final, ran, calls⟩ := CountedLoop.loopWhile_counts State.calls
        (fun i => (config.turns deeper (env.set scope dim i)).map (config.callOf inner params))
        (fun s => (Outcome.broken, s)) step last
        (Nat.lt_of_lt_of_le (config.limit env.numWorkgroups scope dim).isLt enough) state
      refine ⟨final.builtins, ?_⟩
      rw [loops, Code.exec]
      change (loopWhile turn bound (0#32, state)).bind _ = _
      rw [ran, Option.bind_some, afterLoop, turns, List.map_flatMap, ← calls]

end Config

/-! ## The counters of all turns -/

namespace Config
variable (config : Config)

/-- Every combination of counters below the limits, with the others as they are. -/
theorem mem_turns (depths : List (Scope × Dim)) : ∀ (env e : Env), depths.Nodup →
    (e ∈ config.turns depths env ↔
      (∀ s d, (s, d) ∈ depths → e.counters s d < config.limit env.numWorkgroups s d) ∧
      (∀ s d, (s, d) ∉ depths → e.counters s d = env.counters s d) ∧
      e.numWorkgroups = env.numWorkgroups ∧ e.args = env.args ∧ e.lane = env.lane) := by
  induction depths with
  | nil =>
      intro env e _
      rw [turns, List.mem_singleton]
      constructor
      · intro same
        rw [same]
        exact ⟨fun s d member => absurd member List.not_mem_nil, fun _ _ _ => rfl, rfl, rfl, rfl⟩
      · intro ⟨_, counters, numWorkgroups, args, lane⟩
        exact Env.ext (funext fun s => funext fun d => counters s d List.not_mem_nil)
          numWorkgroups args lane
  | cons depth deeper ih =>
      obtain ⟨scope, dim⟩ := depth
      intro env e distinct
      obtain ⟨fresh, distinct⟩ := List.nodup_cons.mp distinct
      rw [turns, List.mem_flatMap]
      constructor
      · intro ⟨i, inRange, member⟩
        obtain ⟨below, same, others⟩ := (ih (env.set scope dim (BitVec.ofNat 32 i)) e distinct).mp member
        have counter : e.counters scope dim = BitVec.ofNat 32 i := by
          rw [same scope dim fresh, Env.set_counters_self]
        refine ⟨?_, ?_, others⟩
        · intro s d listed
          cases List.mem_cons.mp listed with
          | inl first =>
              cases first
              rw [counter, BitVec.lt_def, BitVec.toNat_ofNat]
              exact Nat.lt_of_le_of_lt (Nat.mod_le _ _) (List.mem_range.mp inRange)
          | inr later => exact below s d later
        · intro s d unlisted
          rw [same s d fun later => unlisted (List.mem_cons_of_mem _ later)]
          exact Env.set_counters_of_ne _ _ fun first => unlisted (first ▸ List.mem_cons_self)
      · intro ⟨below, same, others⟩
        refine ⟨(e.counters scope dim).toNat,
          List.mem_range.mpr (below scope dim List.mem_cons_self), ?_⟩
        rw [BitVec.ofNat_toNat, BitVec.setWidth_eq]
        refine (ih _ e distinct).mpr
          ⟨fun s d later => below s d (List.mem_cons_of_mem _ later), ?_, others⟩
        intro s d unlisted
        by_cases first : (s, d) = (scope, dim)
        · cases first
          rw [Env.set_counters_self]
        · rw [Env.set_counters_of_ne _ _ first]
          exact same s d fun listed => (List.mem_cons.mp listed).elim first unlisted

theorem turns_nodup (depths : List (Scope × Dim)) : ∀ env : Env, depths.Nodup →
    (config.turns depths env).Nodup := by
  induction depths with
  | nil => exact fun env _ => List.nodup_singleton env
  | cons depth deeper ih =>
      obtain ⟨scope, dim⟩ := depth
      intro env distinct
      obtain ⟨fresh, distinct⟩ := List.nodup_cons.mp distinct
      apply CountedLoop.nodup_flatMap_of_key (fun e : Env => (e.counters scope dim).toNat)
        List.nodup_range
      · exact fun i _ => ih _ distinct
      · intro i inRange e member
        obtain ⟨_, same, _⟩ := (config.mem_turns deeper _ e distinct).mp member
        have small : i < 2 ^ 32 := Nat.lt_trans (List.mem_range.mp inRange) (BitVec.isLt _)
        rw [same scope dim fresh, Env.set_counters_self, BitVec.toNat_ofNat, Nat.mod_eq_of_lt small]

theorem depths_nodup : depths.Nodup := by decide

theorem mem_depths (s : Scope) (d : Dim) : (s, d) ∈ depths := by
  cases s <;> fin_cases d <;> decide

/-- The turns of all lanes. -/
def allTurns (dispatch : Dispatch) : List Env :=
  (List.range config.subgroupSize.toNat).flatMap fun lane =>
    config.turns depths (dispatch.env (BitVec.ofNat 32 lane))

theorem mem_allTurns (dispatch : Dispatch) (e : Env) :
    e ∈ config.allTurns dispatch ↔ e.lane < config.subgroupSize ∧
      (∀ s d, e.counters s d < config.limit dispatch.numWorkgroups s d) ∧
      e.numWorkgroups = dispatch.numWorkgroups ∧ e.args = dispatch.args := by
  rw [allTurns, List.mem_flatMap]
  constructor
  · intro ⟨lane, inRange, member⟩
    obtain ⟨below, _, numWorkgroups, args, same⟩ :=
      (config.mem_turns depths _ e depths_nodup).mp member
    refine ⟨?_, fun s d => below s d (mem_depths s d), numWorkgroups, args⟩
    rw [same, BitVec.lt_def, Dispatch.env, BitVec.toNat_ofNat]
    exact Nat.lt_of_le_of_lt (Nat.mod_le _ _) (List.mem_range.mp inRange)
  · intro ⟨lane, below, numWorkgroups, args⟩
    refine ⟨e.lane.toNat, List.mem_range.mpr lane, ?_⟩
    rw [BitVec.ofNat_toNat, BitVec.setWidth_eq]
    exact (config.mem_turns depths _ e depths_nodup).mpr ⟨fun s d _ => below s d,
      fun s d unlisted => absurd (mem_depths s d) unlisted, numWorkgroups, args, rfl⟩

theorem allTurns_nodup (dispatch : Dispatch) : (config.allTurns dispatch).Nodup := by
  apply CountedLoop.nodup_flatMap_of_key (fun e : Env => e.lane.toNat) List.nodup_range
  · exact fun lane _ => config.turns_nodup depths _ depths_nodup
  · intro lane inRange e member
    obtain ⟨_, _, _, _, same⟩ := (config.mem_turns depths _ e depths_nodup).mp member
    have small : lane < 2 ^ 32 := Nat.lt_trans (List.mem_range.mp inRange) (BitVec.isLt _)
    rw [same, Dispatch.env, BitVec.toNat_ofNat, Nat.mod_eq_of_lt small]

theorem launch_eq {Body : Type} (node : Function Body) (dispatch : Dispatch) {bound : Nat}
    (enough : 2 ^ 32 ≤ bound) :
    launch config (wrapEntryPoint config node).1 dispatch bound =
      some ((config.allTurns dispatch).map (config.callOf (innerName node.name) node.params)) := by
  have lane : ∀ lane ∈ List.range config.subgroupSize.toNat,
      (((wrapEntryPoint config node).1.body.exec bound (dispatch.env (BitVec.ofNat 32 lane))
        ⟨dispatch.builtins, []⟩).map fun done => done.2.calls) =
        some ((config.turns depths (dispatch.env (BitVec.ofNat 32 lane))).map
          (config.callOf (innerName node.name) node.params)) := by
    intro lane _
    obtain ⟨builtins, ran⟩ := config.loops_exec (innerName node.name) node.params enough depths
      .fnRet (dispatch.env (BitVec.ofNat 32 lane)) ⟨dispatch.builtins, []⟩
    rw [wrapEntryPoint, ran]
    rfl
  rw [launch, CountedLoop.mapM_eq_some lane, allTurns, List.map_flatMap, List.flatMap]
  rfl

/-! ## The ids of all turns -/

/-- The counters and the lane of a turn are below their limits. -/
structure Within (dispatch : Dispatch) (e : Env) : Prop where
  lane : e.lane < config.subgroupSize
  counters : ∀ s d, e.counters s d < config.limit dispatch.numWorkgroups s d

theorem numSubgroups_zero_toNat :
    (config.numSubgroups 0).toNat = (config.workgroupSize 0).toNat / config.subgroupSize.toNat := by
  rw [numSubgroups, if_pos rfl, BitVec.toNat_udiv]

theorem subgroupSize_pos : 0 < config.subgroupSize.toNat := by
  apply Nat.pos_of_ne_zero
  intro isZero
  exact config.subgroupSize_ne_zero (BitVec.eq_of_toNat_eq isZero)

/-- The subgroups of a row take no more than its invocations, whole subgroups only. -/
theorem localId_zero_toNat {dispatch : Dispatch} {e : Env} (within : config.Within dispatch e) :
    ((config.localId 0).eval e).toNat =
        config.subgroupSize.toNat * (e.counters .subgroup 0).toNat + e.lane.toNat ∧
      config.subgroupSize.toNat * (e.counters .subgroup 0).toNat + e.lane.toNat <
        config.subgroupSize.toNat * (config.numSubgroups 0).toNat := by
  have lane : e.lane.toNat < config.subgroupSize.toNat := within.lane
  have counter : (e.counters .subgroup 0).toNat < (config.numSubgroups 0).toNat :=
    within.counters .subgroup 0
  have inRow : config.subgroupSize.toNat * (e.counters .subgroup 0).toNat + e.lane.toNat <
      config.subgroupSize.toNat * (config.numSubgroups 0).toNat :=
    calc config.subgroupSize.toNat * (e.counters .subgroup 0).toNat + e.lane.toNat
        < config.subgroupSize.toNat * ((e.counters .subgroup 0).toNat + 1) := by
          rw [Nat.mul_succ]
          exact Nat.add_lt_add_left lane _
      _ ≤ config.subgroupSize.toNat * (config.numSubgroups 0).toNat :=
          Nat.mul_le_mul_left _ counter
  have row : config.subgroupSize.toNat * (config.numSubgroups 0).toNat ≤
      (config.workgroupSize 0).toNat := by
    rw [numSubgroups_zero_toNat]
    exact Nat.mul_div_le _ _
  have small : config.subgroupSize.toNat * (e.counters .subgroup 0).toNat + e.lane.toNat < 2 ^ 32 :=
    Nat.lt_trans (Nat.lt_of_lt_of_le inRow row) (config.workgroupSize 0).isLt
  refine ⟨?_, inRow⟩
  simp only [localId, if_true, Expr.eval]
  rw [BitVec.toNat_add, BitVec.toNat_mul, Nat.mod_add_mod, Nat.mod_eq_of_lt small]

theorem localId_of_ne {dim : Dim} (e : Env) (other : dim ≠ 0) :
    (config.localId dim).eval e = e.counters .subgroup dim := by
  rw [localId, if_neg other, Expr.eval]

theorem callOf_ids (inner : String) (params : Nat) (e : Env) :
    (config.callOf inner params e).ids =
      (e.counters .workgroup, fun dim => (config.localId dim).eval e) := rfl

/-- Two turns with the same ids are one turn. -/
theorem eq_of_ids {dispatch : Dispatch} {inner : String} {params : Nat} {e e' : Env}
    (member : e ∈ config.allTurns dispatch) (member' : e' ∈ config.allTurns dispatch)
    (same : (config.callOf inner params e).ids = (config.callOf inner params e').ids) : e = e' := by
  obtain ⟨lane, below, numWorkgroups, args⟩ := (config.mem_allTurns dispatch e).mp member
  obtain ⟨lane', below', numWorkgroups', args'⟩ := (config.mem_allTurns dispatch e').mp member'
  rw [callOf_ids, callOf_ids, Prod.mk.injEq] at same
  have locals : ∀ dim, (config.localId dim).eval e = (config.localId dim).eval e' := congrFun same.2
  have first := (config.localId_zero_toNat ⟨lane, below⟩).1
  have first' := (config.localId_zero_toNat ⟨lane', below'⟩).1
  rw [locals 0, first'] at first
  have quotient := congrArg (· / config.subgroupSize.toNat) first
  have remainder := congrArg (· % config.subgroupSize.toNat) first
  simp only [Nat.mul_add_div config.subgroupSize_pos, Nat.div_eq_of_lt lane,
    Nat.div_eq_of_lt lane', Nat.add_zero] at quotient
  simp only [Nat.mul_add_mod, Nat.mod_eq_of_lt lane, Nat.mod_eq_of_lt lane'] at remainder
  apply Env.ext
  · funext scope dim
    cases scope with
    | workgroup => exact congrFun same.1 dim
    | subgroup =>
        by_cases isZero : dim = 0
        · rw [isZero]
          exact BitVec.eq_of_toNat_eq quotient.symm
        · rw [← config.localId_of_ne e isZero, locals dim, config.localId_of_ne e' isZero]
  · rw [numWorkgroups, numWorkgroups']
  · rw [args, args']
  · exact BitVec.eq_of_toNat_eq remainder.symm

theorem ids_nodup (dispatch : Dispatch) (inner : String) (params : Nat) :
    (((config.allTurns dispatch).map (config.callOf inner params)).map Call.ids).Nodup := by
  rw [List.map_map]
  apply List.Nodup.map_on
  · exact fun e member e' member' same => config.eq_of_ids member member' same
  · exact config.allTurns_nodup dispatch

/-- Which ids a turn has: those of the grid whose row is in a whole subgroup. -/
theorem mem_ids_iff (dispatch : Dispatch) (inner : String) (params : Nat)
    (ids : (Dim → Word) × (Dim → Word)) :
    ids ∈ ((config.allTurns dispatch).map (config.callOf inner params)).map Call.ids ↔
      ids ∈ launchGrid config dispatch ∧
        (ids.2 0).toNat < config.subgroupSize.toNat * (config.numSubgroups 0).toNat := by
  have others : ∀ dim : Dim, dim ≠ 0 → config.numSubgroups dim = config.workgroupSize dim :=
    fun dim other => if_neg other
  have row : config.subgroupSize.toNat * (config.numSubgroups 0).toNat ≤
      (config.workgroupSize 0).toNat := by
    rw [numSubgroups_zero_toNat]
    exact Nat.mul_div_le _ _
  rw [List.map_map, List.mem_map]
  constructor
  · intro ⟨e, member, has⟩
    obtain ⟨lane, below, _, _⟩ := (config.mem_allTurns dispatch e).mp member
    obtain ⟨first, inRow⟩ := config.localId_zero_toNat ⟨lane, below⟩
    rw [← has, Function.comp_apply, callOf_ids]
    refine ⟨fun dim => ⟨below .workgroup dim, ?_⟩, by rw [first]; exact inRow⟩
    by_cases isZero : dim = 0
    · rw [isZero, BitVec.lt_def, first]
      exact Nat.lt_of_lt_of_le inRow row
    · change (config.localId dim).eval e < config.workgroupSize dim
      rw [config.localId_of_ne e isZero, ← others dim isZero]
      exact below .subgroup dim
  · intro ⟨inGrid, inRow⟩
    let e : Env :=
      { counters := fun scope dim => match scope with
          | .workgroup => ids.1 dim
          | .subgroup => if dim = 0 then ids.2 0 / config.subgroupSize else ids.2 dim
        numWorkgroups := dispatch.numWorkgroups
        args := dispatch.args
        lane := ids.2 0 % config.subgroupSize }
    have lane : e.lane < config.subgroupSize := by
      rw [BitVec.lt_def, BitVec.toNat_umod]
      exact Nat.mod_lt _ config.subgroupSize_pos
    have below : ∀ s d, e.counters s d < config.limit dispatch.numWorkgroups s d := by
      intro s d
      cases s with
      | workgroup => exact (inGrid d).1
      | subgroup =>
          by_cases isZero : d = 0
          · subst isZero
            simp only [e, if_true, limit]
            rw [BitVec.lt_def, BitVec.toNat_udiv]
            exact Nat.div_lt_of_lt_mul inRow
          · simp only [e, if_neg isZero, limit]
            rw [others d isZero]
            exact (inGrid d).2
    refine ⟨e, (config.mem_allTurns dispatch e).mpr ⟨lane, below, rfl, rfl⟩, ?_⟩
    rw [Function.comp_apply, callOf_ids]
    refine Prod.ext rfl (funext fun dim => ?_)
    by_cases isZero : dim = 0
    · rw [isZero]
      apply BitVec.eq_of_toNat_eq
      rw [(config.localId_zero_toNat ⟨lane, below⟩).1]
      simp only [e, if_true]
      rw [BitVec.toNat_udiv, BitVec.toNat_umod]
      exact Nat.div_add_mod _ _
    · change (config.localId dim).eval e = ids.2 dim
      rw [config.localId_of_ne e isZero]
      simp only [e, if_neg isZero]

/-- The rows are covered when whole subgroups make them up, or when there are none. -/
theorem covers_iff (dispatch : Dispatch) (inner : String) (params : Nat) :
    (∀ ids, ids ∈ ((config.allTurns dispatch).map (config.callOf inner params)).map Call.ids ↔
      ids ∈ launchGrid config dispatch) ↔
      config.subgroupSize.toNat ∣ (config.workgroupSize 0).toNat ∨
        ∃ dim, dispatch.numWorkgroups dim = 0 := by
  simp only [config.mem_ids_iff dispatch inner params, and_iff_left_iff_imp]
  constructor
  · intro covered
    by_cases empty : ∃ dim, dispatch.numWorkgroups dim = 0
    · exact Or.inr empty
    · left
      have positive : ∀ {word : Word}, word ≠ 0 → 0 < word.toNat := fun nonzero =>
        Nat.pos_of_ne_zero fun isZero => nonzero (BitVec.eq_of_toNat_eq isZero)
      -- the last invocation of a row of the first workgroup
      have last := covered (fun _ => 0, fun dim => if dim = 0 then config.workgroupSize 0 - 1 else 0)
        fun dim => by
          refine ⟨positive fun isZero => empty ⟨dim, isZero⟩, ?_⟩
          have size := positive (config.workgroupSize_ne_zero dim)
          by_cases isZero : dim = 0
          · subst isZero
            simp only [if_true, BitVec.lt_def]
            bv_omega
          · simp only [if_neg isZero, BitVec.lt_def]
            exact size
      have size := positive (config.workgroupSize_ne_zero 0)
      have value : (config.workgroupSize 0 - 1).toNat = (config.workgroupSize 0).toNat - 1 := by
        bv_omega
      simp only [if_true] at last
      rw [value, numSubgroups_zero_toNat] at last
      have whole := Nat.mul_div_le (config.workgroupSize 0).toNat config.subgroupSize.toNat
      exact ⟨_, (Nat.le_antisymm whole (by omega)).symm⟩
  · intro condition ids inGrid
    cases condition with
    | inl divides =>
        rw [numSubgroups_zero_toNat, Nat.mul_div_cancel' divides]
        exact (inGrid 0).2
    | inr empty =>
        obtain ⟨dim, none⟩ := empty
        have below := (inGrid dim).1
        rw [none, BitVec.lt_def] at below
        exact absurd below (Nat.not_lt_zero _)

end Config

/-! ## Launches -/

/-- A launch always ends. It runs every invocation once if and only if the subgroup size divides the
first workgroup size or there are no workgroups; where the global ids are words, none wraps around. -/
theorem workgroups_exact {Body : Type} (config : Config) (node : Function Body)
    (dispatch : Dispatch) :
    ∃ calls, EndsWith config (wrapEntryPoint config node).1 dispatch calls ∧
      (RunsOnce config dispatch (wrapEntryPoint config node).2.name node.params calls ↔
        config.subgroupSize.toNat ∣ (config.workgroupSize 0).toNat ∨
          ∃ dim, dispatch.numWorkgroups dim = 0) ∧
      ∀ dim, (dispatch.numWorkgroups dim).toNat * (config.workgroupSize dim).toNat ≤ 2 ^ 32 →
        ∀ call ∈ calls, (call.builtins .globalInvocationId dim).toNat =
          (call.builtins .workgroupId dim).toNat * (config.workgroupSize dim).toNat +
            (call.builtins .localInvocationId dim).toNat := by
  refine ⟨_, ⟨2 ^ 32, fun bound enough => config.launch_eq node dispatch enough⟩, ?_, ?_⟩
  · rw [← config.covers_iff dispatch (innerName node.name) node.params]
    constructor
    · exact RunsOnce.covers
    · intro covers
      refine ⟨config.ids_nodup dispatch _ _, covers, ?_, ?_⟩
      · intro call member
        obtain ⟨e, inTurns, rfl⟩ := List.mem_map.mp member
        obtain ⟨_, _, _, args⟩ := (config.mem_allTurns dispatch e).mp inTurns
        refine ⟨rfl, ?_⟩
        rw [← args]
        rfl
      · intro call member dim
        obtain ⟨e, _, rfl⟩ := List.mem_map.mp member
        exact congrArg (· + (config.localId dim).eval e)
          (BitVec.mul_comm (config.workgroupSize dim) (e.counters .workgroup dim))
  · intro dim fits call member
    have inGrid : call.ids ∈ launchGrid config dispatch :=
      ((config.mem_ids_iff dispatch _ _ call.ids).mp (List.mem_map_of_mem member)).1
    obtain ⟨e, _, rfl⟩ := List.mem_map.mp member
    obtain ⟨workgroup, localId⟩ := inGrid dim
    rw [Config.callOf_ids] at workgroup localId
    have sum : (e.counters .workgroup dim).toNat * (config.workgroupSize dim).toNat +
        ((config.localId dim).eval e).toNat < 2 ^ 32 :=
      calc (e.counters .workgroup dim).toNat * (config.workgroupSize dim).toNat +
            ((config.localId dim).eval e).toNat
          < (e.counters .workgroup dim).toNat * (config.workgroupSize dim).toNat +
            (config.workgroupSize dim).toNat := Nat.add_lt_add_left localId _
        _ = ((e.counters .workgroup dim).toNat + 1) * (config.workgroupSize dim).toNat :=
            (Nat.succ_mul _ _).symm
        _ ≤ (dispatch.numWorkgroups dim).toNat * (config.workgroupSize dim).toNat :=
            Nat.mul_le_mul_right _ workgroup
        _ ≤ 2 ^ 32 := fits
    change ((config.workgroupSize dim * e.counters .workgroup dim) +
      (config.localId dim).eval e).toNat = _
    rw [BitVec.toNat_add, BitVec.toNat_mul, Nat.mod_add_mod, Nat.mul_comm, Nat.mod_eq_of_lt sum]
    rfl

/-! A subgroup of eight lanes and workgroups of one invocation. -/

def eightLanes : Config := ⟨8, fun _ => 1, by decide, by decide⟩

def oneWorkgroup : Dispatch := ⟨fun _ => 1, fun _ => 0, fun _ _ => 0, fun _ _ => 0⟩

/-- No lane calls the kernel, although the grid has an invocation. -/
theorem workgroups_none :
    launch eightLanes (wrapEntryPoint eightLanes ⟨"main", [⟨"EntryPoint", some "Compute"⟩], 0, ()⟩).1
        oneWorkgroup 4 = some [] ∧
      (fun _ => 0, fun _ => 0) ∈ launchGrid eightLanes oneWorkgroup ∧
      ¬ RunsOnce eightLanes oneWorkgroup "main_wrapped" 0 [] := by
  have inGrid : (fun _ => 0, fun _ => 0) ∈ launchGrid eightLanes oneWorkgroup :=
    fun dim => ⟨by change (0 : Word) < 1; decide, by change (0 : Word) < 1; decide⟩
  refine ⟨rfl, inGrid, ?_⟩
  intro runs
  exact absurd ((runs.covers _).mpr inGrid) List.not_mem_nil

end Shady.Workgroups
