import Shady.Backend.Identifiers
import Mathlib.Tactic.Tauto

/-!
# What a module names

The names that end in a number are told apart by the number, since its text has no underscore. A run
names what its steps name: a declaration that is met again is not named again.
-/

set_option autoImplicit false

namespace Shady.Identifiers

/-! ## Texts -/

theorem formatSigned_no_underscore (value : Int) : '_' ∉ formatSigned value := by
  cases value with
  | ofNat k => exact Nat.underscore_not_in_toDigits
  | negSucc k =>
      intro inside
      cases List.mem_cons.mp inside with
      | inl minus => exact absurd minus (by decide)
      | inr digit => exact Nat.underscore_not_in_toDigits digit

theorem toDigits_injective {k l : Nat} (same : Nat.toDigits 10 k = Nat.toDigits 10 l) : k = l := by
  have value := congrArg (fun digits => Nat.ofDigitChars 10 digits 0) same
  simpa only [Nat.ofDigitChars_ten_toDigits] using value

theorem toDigits_ne_minus (k : Nat) (rest : Text) : Nat.toDigits 10 k ≠ '-' :: rest := by
  intro same
  have inside : '-' ∈ Nat.toDigits 10 k := by
    rw [same]
    exact List.mem_cons_self
  have digit := Nat.isDigit_of_mem_toDigits (by decide) (by decide) inside
  exact absurd digit (by decide)

theorem formatSigned_injective {value value' : Int}
    (same : formatSigned value = formatSigned value') : value = value' := by
  cases value with
  | ofNat k =>
      cases value' with
      | ofNat l => exact congrArg Int.ofNat (toDigits_injective same)
      | negSucc l => exact absurd same (toDigits_ne_minus k _)
  | negSucc k =>
      cases value' with
      | ofNat l => exact absurd same.symm (toDigits_ne_minus l _)
      | negSucc l => rw [Nat.succ.inj (toDigits_injective (List.cons.inj same).2)]

/-- Two numbers have one text where their low 32 bits are the same. -/
theorem formatInt_eq_iff (n k : Nat) : formatInt n = formatInt k ↔ n % 2 ^ 32 = k % 2 ^ 32 := by
  refine ⟨fun same => ?_, fun same => ?_⟩
  · have signed := formatSigned_injective same
    have bits := congrArg (· % ((2 ^ 32 : Nat) : Int)) signed
    simp only [Int.bmod_emod] at bits
    exact_mod_cast bits
  · have bits : (n : Int) % ((2 ^ 32 : Nat) : Int) = (k : Int) % ((2 ^ 32 : Nat) : Int) := by
      exact_mod_cast same
    rw [formatInt, formatInt, ← Int.emod_bmod n, bits, Int.emod_bmod]

/-- The last underscore ends the first part. -/
theorem suffixed_eq_iff (str str' : Text) (n k : Nat) :
    suffixed str n = suffixed str' k ↔ str = str' ∧ n % 2 ^ 32 = k % 2 ^ 32 := by
  rw [← formatInt_eq_iff, suffixed, suffixed]
  refine ⟨fun same => ?_, fun same => by rw [same.1, same.2]⟩
  have split : ∀ (a b digits digits' : Text), '_' ∉ digits → '_' ∉ digits' →
      a ++ '_' :: digits = b ++ '_' :: digits' → a = b ∧ digits = digits' := by
    intro a
    induction a with
    | nil =>
        intro b digits digits' free free' same
        cases b with
        | nil => exact ⟨rfl, (List.cons.inj same).2⟩
        | cons c b =>
            refine absurd ?_ free
            rw [(List.cons.inj same).2]
            exact List.mem_append_right b List.mem_cons_self
    | cons c a ih =>
        intro b digits digits' free free' same
        cases b with
        | nil =>
            refine absurd ?_ free'
            rw [← (List.cons.inj same).2]
            exact List.mem_append_right a List.mem_cons_self
        | cons d b =>
            have parts := ih b digits digits' free free' (List.cons.inj same).2
            rw [(List.cons.inj same).1, parts.1]
            exact ⟨rfl, parts.2⟩
  exact split str str' _ _ (formatSigned_no_underscore _) (formatSigned_no_underscore _) same

/-! ## What a run names -/

/-- The ids that a step takes. -/
def Step.takes (config : Config) : Step → Nat
  | .createNode => 1
  | .emitDecl _ => 0
  | .recordType _ => 1
  | .arrType => 1
  | .undef => if config.dialect = .glsl then 0 else 1
  | .localVariable _ (.loopParam none) => 2
  | .localVariable _ _ => 1

/-- The scope and the first part of the name that a step makes unique with the last id it takes. -/
def Step.asks (config : Config) (ids : Nat) : Step → Option (CScope × Text)
  | .createNode => none
  | .emitDecl _ => none
  | .recordType _ => some (recordScope config, "Record".toList)
  | .arrType => some (arrayScope config, "Array".toList)
  | .undef => if config.dialect = .glsl then none else some (.file, "undef".toList)
  | .localVariable place (.loopParam none) =>
      some (.function place, suffixed "phi".toList (ids + 1))
  | .localVariable place site => some (.function place, site.str)

/-- The ids that are given out before a step. -/
def idsAfter (config : Config) (ids : Nat) (before : List Step) : Nat :=
  ids + (before.map (Step.takes config)).sum

/-- The names with a number: of parameters, and those that the steps make. -/
inductive Numbered (config : Config) (m : Module) (steps : List Step) :
    CScope → Entity → Text → Nat → Prop
  | parameter (place index : Nat) (decl : Declaration) (param : Param) :
      m.declarations[place]? = some decl → decl.params[index]? = some param →
      Numbered config m steps (.function place) (.parameter index)
        (legalizeIdentifier param.name) param.id
  | generated (before after : List Step) (step : Step) (scope : CScope) (str : Text) :
      steps = before ++ step :: after →
      step.asks config (idsAfter config m.ids before) = some (scope, str) →
      Numbered config m steps scope
        (.generated (idsAfter config m.ids before + step.takes config)) str
        (idsAfter config m.ids before + step.takes config)

/-- The record types whose members are written, and the scope of the members. -/
inductive LaidOut (config : Config) (m : Module) (steps : List Step) : CScope → RecordType → Prop
  | record (before after : List Step) (type : RecordType) :
      steps = before ++ .recordType type :: after →
      LaidOut config m steps (.record (idsAfter config m.ids before + 1)) type
  | nominal (place : Nat) (name : Text) (type : RecordType) :
      config.dialect = .glsl → m.declarations[place]? = some (.nominalType name type) →
      LaidOut config m steps (.nominal place) type

/-! ## Runs -/

/-- The names of the parameters of a function. -/
def paramNames (place : Nat) (params : List Param) : List Emission :=
  params.zipIdx.map fun (param, i) =>
    ⟨.function place, .parameter i, suffixed (legalizeIdentifier param.name) param.id⟩

def memberNames (scope : CScope) (type : RecordType) : List Emission :=
  (List.range type.members).map fun i => ⟨scope, .member i, getRecordFieldName type i⟩

/-- What a declaration names besides itself. -/
def Declaration.innerNames (config : Config) (place : Nat) : Declaration → List Emission
  | .globalVariable .. => []
  | .function _ params => paramNames place params
  | .constant _ => []
  | .nominalType _ body => if config.dialect = .glsl then memberNames (.nominal place) body else []

def Declaration.names (config : Config) (place : Nat) (decl : Declaration) : List Emission :=
  match decl.scope config with
  | none => []
  | some scope =>
      ⟨scope, .declaration place, legalizeIdentifier (some decl.name)⟩ ::
        decl.innerNames config place

/-- The name that a step makes unique. -/
def Step.uniqueNames (config : Config) (ids : Nat) (step : Step) : List Emission :=
  match step.asks config ids with
  | none => []
  | some (scope, str) =>
      let number := ids + step.takes config
      [⟨scope, .generated number, suffixed str number⟩]

def Step.innerNames (config : Config) (m : Module) (ids : Nat) : Step → List Emission
  | .emitDecl place => match m.declarations[place]? with
    | none => []
    | some decl => decl.names config place
  | .recordType type => memberNames (.record (ids + 1)) type
  | _ => []

/-- What a step names the first time. -/
def Step.names (config : Config) (m : Module) (ids : Nat) (step : Step) : List Emission :=
  step.uniqueNames config ids ++ step.innerNames config m ids

theorem Emitter.members_eq (e : Emitter) (scope : CScope) (type : RecordType) :
    e.members scope type = { e with emitted := e.emitted ++ memberNames scope type } := by
  have each : ∀ (indices : List Nat) (e : Emitter),
      indices.foldl (fun e i => e.name scope (.member i) (getRecordFieldName type i)) e =
        { e with emitted := e.emitted ++ indices.map fun i =>
            ⟨scope, .member i, getRecordFieldName type i⟩ } := by
    intro indices
    induction indices with
    | nil => intro e; simp
    | cons i indices ih =>
        intro e
        rw [List.foldl_cons, ih]
        simp [Emitter.name]
  exact each _ e

theorem Emitter.params_eq (e : Emitter) (place : Nat) (params : List Param) :
    e.params place params = { e with emitted := e.emitted ++ paramNames place params } := by
  have each : ∀ (params : List (Param × Nat)) (e : Emitter),
      params.foldl (fun e (param, i) => e.name (.function place) (.parameter i)
          (suffixed (legalizeIdentifier param.name) param.id)) e =
        { e with emitted := e.emitted ++ params.map fun (param, i) =>
            ⟨.function place, .parameter i,
              suffixed (legalizeIdentifier param.name) param.id⟩ } := by
    intro params
    induction params with
    | nil => intro e; simp
    | cons param params ih =>
        intro e
        rw [List.foldl_cons, ih]
        simp [Emitter.name]
  exact each _ e

theorem Emitter.inside_eq (config : Config) (e : Emitter) (place : Nat) (decl : Declaration) :
    e.inside config place decl =
      { e with emitted := e.emitted ++ decl.innerNames config place } := by
  cases decl with
  | globalVariable name addressSpace isBuiltin => simp [Emitter.inside, Declaration.innerNames]
  | function name params => exact e.params_eq place params
  | constant name => simp [Emitter.inside, Declaration.innerNames]
  | nominalType name body =>
      rw [Emitter.inside, Declaration.innerNames]
      by_cases glsl : config.dialect = .glsl
      · rw [if_pos glsl, if_pos glsl, Emitter.members_eq]
      · simp [glsl]

/-- A declaration that is not emitted yet. -/
theorem Emitter.emitDecl_new (config : Config) (m : Module) (e : Emitter) (place : Nat)
    (new : place ∉ e.emittedDecls) (decl : Declaration)
    (found : m.declarations[place]? = some decl) :
    e.emitDecl config m place = { e with
      emittedDecls := place :: e.emittedDecls
      emitted := e.emitted ++ decl.names config place } := by
  rw [Emitter.emitDecl, if_neg new, found]
  dsimp only
  rw [Declaration.names]
  cases decl.scope config with
  | none => simp
  | some scope => simp [Emitter.name, Emitter.inside_eq]

/-- The declarations that are emitted have their names. -/
def Emitter.Kept (config : Config) (m : Module) (e : Emitter) : Prop :=
  ∀ place ∈ e.emittedDecls, ∀ x ∈ (Step.emitDecl place).names config m e.ids, x ∈ e.emitted

/-- A step takes its ids and adds its names. -/
structure Adds (config : Config) (m : Module) (step : Step) (e e' : Emitter) : Prop where
  ids : e'.ids = e.ids + step.takes config
  emitted : ∀ x, x ∈ e'.emitted ↔ x ∈ e.emitted ∨ x ∈ step.names config m e.ids
  kept : e'.Kept config m

/-- A step that emits no declaration. -/
theorem Adds.of_eq {config : Config} {m : Module} {step : Step} {e : Emitter}
    (kept : e.Kept config m) (ids : Nat) (names : List Emission)
    (takes : ids = e.ids + step.takes config) (same : names = step.names config m e.ids) :
    Adds config m step e { e with ids := ids, emitted := e.emitted ++ names } where
  ids := takes
  emitted := fun x => by rw [same]; exact List.mem_append
  kept := fun place inside x named => List.mem_append_left _ (kept place inside x named)

theorem Emitter.step_adds (config : Config) (m : Module) (e : Emitter) (step : Step)
    (kept : e.Kept config m) : Adds config m step e (e.step config m step) := by
  cases step with
  | emitDecl place =>
      by_cases emitted : place ∈ e.emittedDecls
      · rw [Emitter.step, Emitter.emitDecl, if_pos emitted]
        refine ⟨rfl, fun x => ⟨Or.inl, fun either => ?_⟩, kept⟩
        cases either with
        | inl old => exact old
        | inr named => exact kept place emitted x named
      · rw [Emitter.step]
        cases found : m.declarations[place]? with
        | none =>
            rw [Emitter.emitDecl, if_neg emitted, found]
            refine ⟨rfl, fun x => ⟨Or.inl, fun either => ?_⟩, kept⟩
            cases either with
            | inl old => exact old
            | inr named =>
                have names : (Step.emitDecl place).names config m e.ids = [] := by
                  rw [Step.names, Step.innerNames, found]
                  rfl
                rw [names] at named
                exact absurd named List.not_mem_nil
        | some decl =>
            rw [e.emitDecl_new config m place emitted decl found]
            have names : (Step.emitDecl place).names config m e.ids = decl.names config place := by
              rw [Step.names, Step.innerNames, found]
              rfl
            refine ⟨rfl, fun x => by rw [names]; exact List.mem_append, ?_⟩
            intro place' inside x named
            cases List.mem_cons.mp inside with
            | inl same =>
                subst same
                exact List.mem_append_right _ (names ▸ named)
            | inr old => exact List.mem_append_left _ (kept place' old x named)
  | createNode =>
      have same : e.step config m .createNode =
          { e with ids := e.ids + 1, emitted := e.emitted ++ [] } := by
        rw [List.append_nil]
        rfl
      rw [same]
      exact .of_eq kept _ [] rfl rfl
  | recordType type =>
      rw [Emitter.step, Emitter.emitRecordType, Emitter.members_eq]
      have both := List.append_assoc e.emitted
        ((Step.recordType type).uniqueNames config e.ids) (memberNames (.record (e.ids + 1)) type)
      exact both ▸ .of_eq kept (e.ids + 1) _ rfl rfl
  | arrType => exact .of_eq kept _ _ rfl rfl
  | undef =>
      rw [Emitter.step]
      by_cases glsl : config.dialect = .glsl
      · rw [if_pos glsl]
        have names : Step.undef.names config m e.ids = [] := by
          rw [Step.names, Step.uniqueNames, Step.asks, if_pos glsl]
          rfl
        refine ⟨by rw [Step.takes, if_pos glsl]; rfl, fun x => ?_, kept⟩
        rw [names]
        exact (or_iff_left List.not_mem_nil).symm
      · rw [if_neg glsl]
        refine .of_eq kept _ _ (by rw [Step.takes, if_neg glsl]) ?_
        rw [Step.names, Step.uniqueNames, Step.asks, if_neg glsl, Step.takes, if_neg glsl]
        rfl
  | localVariable place site =>
      cases site with
      | loopParam name =>
          cases name with
          | none => exact .of_eq kept _ _ rfl rfl
          | some name => exact .of_eq kept _ _ rfl rfl
      | _ => exact .of_eq kept _ _ rfl rfl

theorem idsAfter_cons (config : Config) (ids : Nat) (step : Step) (before : List Step) :
    idsAfter config (ids + step.takes config) before = idsAfter config ids (step :: before) := by
  rw [idsAfter, idsAfter, List.map_cons, List.sum_cons]
  omega

theorem Emitter.run_adds (config : Config) (m : Module) (steps : List Step) :
    ∀ e : Emitter, e.Kept config m → ∀ x, x ∈ (e.run config m steps).emitted ↔
      x ∈ e.emitted ∨ ∃ before step after, steps = before ++ step :: after ∧
        x ∈ step.names config m (idsAfter config e.ids before) := by
  induction steps with
  | nil =>
      intro e kept x
      refine ⟨Or.inl, fun either => ?_⟩
      cases either with
      | inl old => exact old
      | inr later =>
          obtain ⟨before, step, after, split, named⟩ := later
          exact absurd split (by simp)
  | cons first rest ih =>
      intro e kept x
      have adds := e.step_adds config m first kept
      have run : e.run config m (first :: rest) = (e.step config m first).run config m rest := rfl
      rw [run, ih _ adds.kept, adds.emitted, adds.ids]
      constructor
      · intro either
        rcases either with (old | named) | ⟨before, step, after, split, named⟩
        · exact Or.inl old
        · exact Or.inr ⟨[], first, rest, rfl, named⟩
        · refine Or.inr ⟨first :: before, step, after, by rw [split]; rfl, ?_⟩
          rwa [idsAfter_cons] at named
      · intro either
        rcases either with old | ⟨before, step, after, split, named⟩
        · exact Or.inl (Or.inl old)
        · cases before with
          | nil =>
              rw [(List.cons.inj split).1]
              exact Or.inl (Or.inr named)
          | cons head before =>
              rw [(List.cons.inj split).1]
              refine Or.inr ⟨before, step, after, (List.cons.inj split).2, ?_⟩
              rwa [idsAfter_cons]

theorem Emitter.mem_collectPrivateGlobals (m : Module) (e : Emitter) (x : Emission) :
    x ∈ (e.collectPrivateGlobals m).emitted ↔ x ∈ e.emitted ∨
      ∃ place decl, m.declarations[place]? = some decl ∧ decl.isPrivateGlobal ∧
        x = ⟨.privateGlobals, .declaration place, decl.name⟩ := by
  have each : ∀ (decls : List (Declaration × Nat)) (e : Emitter),
      x ∈ (decls.foldl (fun e entry => if entry.1.isPrivateGlobal then
          e.name .privateGlobals (.declaration entry.2) entry.1.name else e) e).emitted ↔
        x ∈ e.emitted ∨ ∃ entry ∈ decls, entry.1.isPrivateGlobal ∧
          x = ⟨.privateGlobals, .declaration entry.2, entry.1.name⟩ := by
    intro decls
    induction decls with
    | nil => intro e; simp
    | cons entry decls ih =>
        intro e
        obtain ⟨decl, place⟩ := entry
        rw [List.foldl_cons, ih, List.exists_mem_cons_iff]
        dsimp only
        by_cases collected : decl.isPrivateGlobal
        · rw [if_pos collected, Emitter.name, List.mem_append, List.mem_singleton]
          tauto
        · rw [if_neg collected]
          tauto
  refine (each m.declarations.zipIdx e).trans ?_
  refine or_congr Iff.rfl ⟨?_, ?_⟩
  · rintro ⟨⟨decl, place⟩, inside, collected, same⟩
    exact ⟨place, decl, List.mem_zipIdx_iff_getElem?.mp inside, collected, same⟩
  · rintro ⟨place, decl, found, collected, same⟩
    exact ⟨(decl, place), List.mem_zipIdx_iff_getElem?.mpr found, collected, same⟩

theorem Emitter.collectPrivateGlobals_rest (m : Module) (e : Emitter) :
    (e.collectPrivateGlobals m).ids = e.ids ∧
      (e.collectPrivateGlobals m).emittedDecls = e.emittedDecls := by
  have each : ∀ (decls : List (Declaration × Nat)) (e : Emitter),
      let e' := decls.foldl (fun e entry => if entry.1.isPrivateGlobal then
        e.name .privateGlobals (.declaration entry.2) entry.1.name else e) e
      e'.ids = e.ids ∧ e'.emittedDecls = e.emittedDecls := by
    intro decls
    induction decls with
    | nil => exact fun e => ⟨rfl, rfl⟩
    | cons entry decls ih =>
        intro e
        obtain ⟨decl, place⟩ := entry
        dsimp only
        rw [List.foldl_cons]
        by_cases collected : decl.isPrivateGlobal
        · rw [if_pos collected]
          exact ih _
        · rw [if_neg collected]
          exact ih _
  exact each _ e

/-! ## What a module names -/

/-- The names of a module. -/
inductive Named (config : Config) (m : Module) (steps : List Step) : Emission → Prop
  | collected (place : Nat) (decl : Declaration) :
      config.dialect = .cuda → m.declarations[place]? = some decl → decl.isPrivateGlobal →
      Named config m steps ⟨.privateGlobals, .declaration place, decl.name⟩
  | declared (place : Nat) (decl : Declaration) (scope : CScope) :
      m.declarations[place]? = some decl → decl.scope config = some scope →
      Named config m steps ⟨scope, .declaration place, legalizeIdentifier (some decl.name)⟩
  | numbered (scope : CScope) (entity : Entity) (str : Text) (n : Nat) :
      Numbered config m steps scope entity str n →
      Named config m steps ⟨scope, entity, suffixed str n⟩
  | member (scope : CScope) (type : RecordType) (i : Nat) :
      LaidOut config m steps scope type → i < type.members →
      Named config m steps ⟨scope, .member i, getRecordFieldName type i⟩

theorem mem_memberNames (scope : CScope) (type : RecordType) (x : Emission) :
    x ∈ memberNames scope type ↔
      ∃ i, i < type.members ∧ x = ⟨scope, .member i, getRecordFieldName type i⟩ := by
  rw [memberNames, List.mem_map]
  simp only [List.mem_range, eq_comm]

theorem mem_paramNames (place : Nat) (params : List Param) (x : Emission) :
    x ∈ paramNames place params ↔ ∃ i param, params[i]? = some param ∧
      x = ⟨.function place, .parameter i, suffixed (legalizeIdentifier param.name) param.id⟩ := by
  rw [paramNames, List.mem_map]
  constructor
  · rintro ⟨⟨param, i⟩, inside, rfl⟩
    exact ⟨i, param, List.mem_zipIdx_iff_getElem?.mp inside, rfl⟩
  · rintro ⟨i, param, found, rfl⟩
    exact ⟨(param, i), List.mem_zipIdx_iff_getElem?.mpr found, rfl⟩

theorem Declaration.mem_names (config : Config) (place : Nat) (decl : Declaration) (x : Emission) :
    x ∈ decl.names config place ↔ ∃ scope, decl.scope config = some scope ∧
      (x = ⟨scope, .declaration place, legalizeIdentifier (some decl.name)⟩ ∨
        x ∈ decl.innerNames config place) := by
  rw [Declaration.names]
  cases decl.scope config with
  | none => simp
  | some scope => simp [List.mem_cons]

theorem Declaration.innerNames_named {config : Config} {m : Module} {steps : List Step}
    {place : Nat} {decl : Declaration} (found : m.declarations[place]? = some decl) {x : Emission}
    (inner : x ∈ decl.innerNames config place) : Named config m steps x := by
  cases decl with
  | globalVariable name addressSpace isBuiltin => exact absurd inner List.not_mem_nil
  | constant name => exact absurd inner List.not_mem_nil
  | function name params =>
      obtain ⟨i, param, isParam, rfl⟩ := (mem_paramNames ..).mp inner
      exact .numbered _ _ _ _ (.parameter place i _ param found isParam)
  | nominalType name body =>
      rw [Declaration.innerNames] at inner
      by_cases glsl : config.dialect = .glsl
      · rw [if_pos glsl] at inner
        obtain ⟨i, inside, rfl⟩ := (mem_memberNames ..).mp inner
        exact .member _ body i (.nominal place name body glsl found) inside
      · rw [if_neg glsl] at inner
        exact absurd inner List.not_mem_nil

/-- A step names nothing else. -/
theorem Step.names_named {config : Config} {m : Module} {steps before after : List Step}
    {step : Step} (split : steps = before ++ step :: after) {x : Emission}
    (named : x ∈ step.names config m (idsAfter config m.ids before)) :
    Named config m steps x := by
  rw [Step.names, List.mem_append] at named
  cases named with
  | inl unique =>
      rw [Step.uniqueNames] at unique
      cases asks : step.asks config (idsAfter config m.ids before) with
      | none =>
          rw [asks] at unique
          exact absurd unique List.not_mem_nil
      | some ask =>
          rw [asks] at unique
          rw [List.mem_singleton.mp unique]
          exact .numbered _ _ _ _ (.generated before after step _ _ split asks)
  | inr inner =>
      cases step with
      | emitDecl place =>
          rw [Step.innerNames] at inner
          cases found : m.declarations[place]? with
          | none =>
              rw [found] at inner
              exact absurd inner List.not_mem_nil
          | some decl =>
              rw [found] at inner
              obtain ⟨scope, isScope, either⟩ := (decl.mem_names config place x).mp inner
              cases either with
              | inl itself =>
                  rw [itself]
                  exact .declared place decl scope found isScope
              | inr inner => exact decl.innerNames_named found inner
      | recordType type =>
          obtain ⟨i, inside, rfl⟩ := (mem_memberNames ..).mp inner
          exact .member _ type i (.record before after type split) inside
      | createNode => exact absurd inner List.not_mem_nil
      | arrType => exact absurd inner List.not_mem_nil
      | undef => exact absurd inner List.not_mem_nil
      | localVariable place site => exact absurd inner List.not_mem_nil

/-- Each declaration is emitted. -/
theorem Module.emitDecl_mem_steps (m : Module) (work : Nat → List Step) {place : Nat}
    {decl : Declaration} (found : m.declarations[place]? = some decl) :
    .emitDecl place ∈ m.steps work := by
  have inside : place < m.declarations.length := (List.getElem?_eq_some_iff.mp found).1
  rw [Module.steps, List.mem_flatMap]
  exact ⟨place, List.mem_range.mpr inside, List.mem_cons_self⟩

/-- What a declaration names is named in a run. -/
theorem Module.declNames_mem {config : Config} {m : Module} (work : Nat → List Step) {place : Nat}
    {decl : Declaration} (found : m.declarations[place]? = some decl) {x : Emission}
    (named : x ∈ decl.names config place) : ∃ before step after,
      m.steps work = before ++ step :: after ∧
        x ∈ step.names config m (idsAfter config m.ids before) := by
  obtain ⟨before, after, split⟩ := List.append_of_mem (m.emitDecl_mem_steps work found)
  refine ⟨before, _, after, split, ?_⟩
  rw [Step.names, Step.innerNames, found]
  exact List.mem_append_right _ named

/-- The identifiers of a module are exactly those that it names. -/
theorem mem_emitC (config : Config) (m : Module) (work : Nat → List Step) (x : Emission) :
    x ∈ emitC config m work ↔ Named config m (m.steps work) x := by
  have start : x ∈ emitC config m work ↔
      (config.dialect = .cuda ∧ ∃ place decl, m.declarations[place]? = some decl ∧
        decl.isPrivateGlobal ∧ x = ⟨.privateGlobals, .declaration place, decl.name⟩) ∨
      ∃ before step after, m.steps work = before ++ step :: after ∧
        x ∈ step.names config m (idsAfter config m.ids before) := by
    rw [emitC]
    by_cases cuda : config.dialect = .cuda
    · have rest := Emitter.collectPrivateGlobals_rest m ⟨m.ids, [], []⟩
      have kept : (Emitter.collectPrivateGlobals m ⟨m.ids, [], []⟩).Kept config m := by
        intro place inside
        rw [rest.2] at inside
        exact absurd inside List.not_mem_nil
      rw [if_pos cuda, Emitter.run_adds config m _ _ kept, Emitter.mem_collectPrivateGlobals,
        rest.1]
      simp [cuda]
    · have kept : Emitter.Kept config m ⟨m.ids, [], []⟩ :=
        fun place inside => absurd inside List.not_mem_nil
      rw [if_neg cuda, Emitter.run_adds config m _ _ kept]
      simp [cuda]
  rw [start]
  constructor
  · intro either
    cases either with
    | inl global =>
        obtain ⟨cuda, place, decl, found, collected, rfl⟩ := global
        exact .collected place decl cuda found collected
    | inr later =>
        obtain ⟨before, step, after, split, named⟩ := later
        exact Step.names_named split named
  · intro named
    cases named with
    | collected place decl cuda found collected =>
        exact Or.inl ⟨cuda, place, decl, found, collected, rfl⟩
    | declared place decl scope found isScope =>
        exact Or.inr (Module.declNames_mem work found
          ((decl.mem_names config place _).mpr ⟨scope, isScope, Or.inl rfl⟩))
    | numbered scope entity str n numbered =>
        cases numbered with
        | parameter place index decl param found isParam =>
            cases decl with
            | function name params =>
                have inner := (mem_paramNames place params _).mpr ⟨index, param, isParam, rfl⟩
                exact Or.inr (Module.declNames_mem work found
                  ((Declaration.mem_names config place _ _).mpr ⟨.file, rfl, Or.inr inner⟩))
            | globalVariable name addressSpace isBuiltin => exact nomatch isParam
            | constant name => exact nomatch isParam
            | nominalType name body => exact nomatch isParam
        | generated before after step _ _ split asks =>
            refine Or.inr ⟨before, step, after, split, ?_⟩
            rw [Step.names, Step.uniqueNames, asks]
            exact List.mem_append_left _ (List.mem_singleton.mpr rfl)
    | member scope type i laidOut inside =>
        cases laidOut with
        | record before after _ split =>
            refine Or.inr ⟨before, _, after, split, List.mem_append_right _ ?_⟩
            exact (mem_memberNames ..).mpr ⟨i, inside, rfl⟩
        | nominal place name _ glsl found =>
            refine Or.inr (Module.declNames_mem work found
              ((Declaration.mem_names config place _ _).mpr ⟨.file, rfl, Or.inr ?_⟩))
            rw [Declaration.innerNames, if_pos glsl]
            exact (mem_memberNames ..).mpr ⟨i, inside, rfl⟩

end Shady.Identifiers
