import Shady.Backend.IdentifierNames
import Mathlib.Data.List.Forall2
import Mathlib.Tactic.ByContra

/-!
# When the identifiers are distinct

The legalized names of declarations are not made unique: they meet each other where they differ in
illegal characters only, and meet a generated name of the file where they read like one. The names
of record members are taken as they are.
-/

set_option autoImplicit false

namespace Shady.Identifiers

/-! ## Names that meet -/

/-- Characters that `legalizeIdentifier` writes alike. -/
def AlikeChar (c d : Char) : Prop :=
  c = d ∨ (c = '_' ∨ isLegalIdentifierChar c = false) ∧ (d = '_' ∨ isLegalIdentifierChar d = false)

/-- Names that differ in underscores and illegal characters only. -/
def Alike (name name' : Text) : Prop := List.Forall₂ AlikeChar name name'

theorem alikeChar_iff (c d : Char) : AlikeChar c d ↔
    (if isLegalIdentifierChar c then c else '_') = if isLegalIdentifierChar d then d else '_' := by
  have underscore : isLegalIdentifierChar '_' = true := by decide
  unfold AlikeChar
  by_cases c_legal : isLegalIdentifierChar c
  · by_cases d_legal : isLegalIdentifierChar d
    · simp only [c_legal, d_legal, if_true, Bool.true_eq_false, or_false]
      refine ⟨fun alike => ?_, Or.inl⟩
      cases alike with
      | inl same => exact same
      | inr both => exact both.1.trans both.2.symm
    · simp only [c_legal, d_legal, if_true, Bool.true_eq_false, or_false, or_true, and_true]
      refine ⟨fun alike => ?_, Or.inr⟩
      cases alike with
      | inl same => exact absurd (same ▸ c_legal) d_legal
      | inr blank => exact blank
  · by_cases d_legal : isLegalIdentifierChar d
    · simp only [c_legal, d_legal, if_true, Bool.true_eq_false, or_false, or_true, true_and]
      refine ⟨fun alike => ?_, fun blank => Or.inr blank.symm⟩
      cases alike with
      | inl same => exact absurd (same ▸ d_legal) c_legal
      | inr blank => exact blank.symm
    · simp [c_legal, d_legal]

theorem legalizeIdentifier_eq_iff (name name' : Text) :
    legalizeIdentifier (some name) = legalizeIdentifier (some name') ↔ Alike name name' := by
  dsimp only [legalizeIdentifier]
  unfold Alike
  induction name generalizing name' with
  | nil => cases name' <;> simp
  | cons c name ih =>
      cases name' with
      | nil => simp
      | cons d name' =>
          rw [List.map_cons, List.map_cons, List.cons_eq_cons, List.forall₂_cons, ih,
            ← alikeChar_iff]

/-- The names that a module may bring into one scope are apart. -/
structure Separate (config : Config) (m : Module) (steps : List Step) : Prop where
  /-- No two declarations of a scope differ in underscores and illegal characters only. -/
  declarations : ∀ (place place' : Nat) (decl decl' : Declaration) scope,
    m.declarations[place]? = some decl → m.declarations[place']? = some decl' →
    decl.scope config = some scope → decl'.scope config = some scope →
    place ≠ place' → ¬ Alike decl.name decl'.name
  /-- A private global of CUDA is also written as it is named. -/
  privateGlobals : config.dialect = .cuda → ∀ (place place' : Nat) (decl decl' : Declaration),
    m.declarations[place]? = some decl → m.declarations[place']? = some decl' →
    decl.isPrivateGlobal → place ≠ place' →
      (decl'.isPrivateGlobal → decl.name ≠ decl'.name) ∧
      (decl'.scope config = some .privateGlobals →
        decl.name ≠ legalizeIdentifier (some decl'.name))
  /-- No declaration reads like a generated name of the file. -/
  generated : ∀ (place : Nat) (decl : Declaration) entity str n,
    m.declarations[place]? = some decl → decl.scope config = some .file →
    Numbered config m steps .file entity str n →
    legalizeIdentifier (some decl.name) ≠ suffixed str n
  /-- The numbers of one scope with the same text in front differ in their low 32 bits. -/
  numbers : ∀ scope entity entity' str n k,
    Numbered config m steps scope entity str n → Numbered config m steps scope entity' str k →
    n % 2 ^ 32 = k % 2 ^ 32 → entity = entity'
  /-- The members of a record type have different names, or are numbered in 32 bits. -/
  members : ∀ scope type, LaidOut config m steps scope type →
    type.names.Nodup ∧ (type.names = [] → type.members ≤ 2 ^ 32)

/-! ## Scopes -/

theorem Declaration.scope_cases {config : Config} {decl : Declaration} {scope : CScope}
    (isScope : decl.scope config = some scope) :
    scope = .file ∨ scope = .privateGlobals ∧ config.dialect = .cuda ∧ decl.isPrivateGlobal := by
  cases decl with
  | globalVariable name addressSpace isBuiltin =>
      rw [Declaration.scope] at isScope
      split_ifs at isScope with builtin output priv
      · simp only [Bool.and_eq_true, decide_eq_true_eq] at priv
        refine Or.inr ⟨(Option.some.inj isScope).symm, priv.2, ?_⟩
        rw [Declaration.isPrivateGlobal, priv.1]
        rfl
      · exact Or.inl (Option.some.inj isScope).symm
  | function name params => exact Or.inl (Option.some.inj isScope).symm
  | constant name => exact Or.inl (Option.some.inj isScope).symm
  | nominalType name body => exact Or.inl (Option.some.inj isScope).symm

/-- The scopes that have names with numbers. -/
theorem Numbered.scope_cases {config : Config} {m : Module} {steps : List Step} {scope : CScope}
    {entity : Entity} {str : Text} {n : Nat}
    (numbered : Numbered config m steps scope entity str n) :
    (∃ place, scope = .function place) ∨
      ((scope = .file ∨ scope = .tags) ∧ entity = .generated n) := by
  cases numbered with
  | parameter place index decl param found isParam => exact Or.inl ⟨place, rfl⟩
  | generated before after step _ _ split asks =>
      cases step with
      | createNode => exact nomatch asks
      | emitDecl place => exact nomatch asks
      | recordType type =>
          rw [Step.asks, recordScope] at asks
          split_ifs at asks
          · cases asks; exact Or.inr ⟨Or.inr rfl, rfl⟩
          · cases asks; exact Or.inr ⟨Or.inl rfl, rfl⟩
      | arrType =>
          rw [Step.asks, arrayScope] at asks
          split_ifs at asks
          · cases asks; exact Or.inr ⟨Or.inl rfl, rfl⟩
          · cases asks; exact Or.inr ⟨Or.inr rfl, rfl⟩
      | undef =>
          rw [Step.asks] at asks
          split_ifs at asks
          cases asks; exact Or.inr ⟨Or.inl rfl, rfl⟩
      | localVariable place site =>
          have isScope : scope = .function place := by
            cases site with
            | loopParam name =>
                cases name with
                | none => exact congrArg Prod.fst (Option.some.inj asks).symm
                | some name => exact congrArg Prod.fst (Option.some.inj asks).symm
            | _ => exact congrArg Prod.fst (Option.some.inj asks).symm
          exact Or.inl ⟨place, isScope⟩

/-- A record type is named by the id that is its own. -/
theorem recordType_unique {config : Config} {ids : Nat} {type type' : RecordType}
    {before after before' after' : List Step}
    (split : before ++ Step.recordType type :: after = before' ++ Step.recordType type' :: after')
    (same : idsAfter config ids before = idsAfter config ids before') : type = type' := by
  induction before generalizing ids before' with
  | nil =>
      cases before' with
      | nil => exact Step.recordType.inj (List.cons.inj split).1
      | cons first before' =>
          rw [← (List.cons.inj split).1, ← idsAfter_cons] at same
          simp only [idsAfter, List.map_nil, List.sum_nil, Step.takes] at same
          omega
  | cons first before ih =>
      cases before' with
      | nil =>
          rw [(List.cons.inj split).1, ← idsAfter_cons] at same
          simp only [idsAfter, List.map_nil, List.sum_nil, Step.takes] at same
          omega
      | cons first' before' =>
          rw [← (List.cons.inj split).1, ← idsAfter_cons, ← idsAfter_cons] at same
          exact ih (List.cons.inj split).2 same

theorem LaidOut.unique {config : Config} {m : Module} {steps : List Step} {scope : CScope}
    {type type' : RecordType} (laidOut : LaidOut config m steps scope type)
    (laidOut' : LaidOut config m steps scope type') : type = type' := by
  cases laidOut with
  | record before after _ split =>
      generalize number : idsAfter config m.ids before + 1 = k at laidOut'
      cases laidOut' with
      | record before' after' _ split' =>
          exact recordType_unique (split.symm.trans split') (Nat.succ.inj number)
  | nominal place name _ glsl found =>
      cases laidOut' with
      | nominal _ name' _ glsl' found' =>
          rw [found] at found'
          exact (Declaration.nominalType.inj (Option.some.inj found')).2

/-- The members of records share no scope with anything else. -/
theorem LaidOut.alone {config : Config} {m : Module} {steps : List Step} {scope : CScope}
    {type : RecordType} (laidOut : LaidOut config m steps scope type) :
    scope ≠ .file ∧ scope ≠ .tags ∧ scope ≠ .privateGlobals ∧ ∀ place, scope ≠ .function place := by
  cases laidOut with
  | record before after _ split => simp
  | nominal place name _ glsl found => simp

theorem LaidOut.not_numbered {config : Config} {m : Module} {steps : List Step} {scope : CScope}
    {type : RecordType} (laidOut : LaidOut config m steps scope type) (entity : Entity) (str : Text)
    (n : Nat) : ¬ Numbered config m steps scope entity str n := by
  intro numbered
  rcases numbered.scope_cases with ⟨place, inFunction⟩ | ⟨inFile | inTags, _⟩
  · exact laidOut.alone.2.2.2 place inFunction
  · exact laidOut.alone.1 inFile
  · exact laidOut.alone.2.1 inTags

/-! ## Members -/

theorem getRecordFieldName_injective {type : RecordType} (nodup : type.names.Nodup)
    (numbered : type.names = [] → type.members ≤ 2 ^ 32) {i j : Nat} (i_inside : i < type.members)
    (j_inside : j < type.members) (same : getRecordFieldName type i = getRecordFieldName type j) :
    i = j := by
  rw [getRecordFieldName, getRecordFieldName] at same
  cases type.counts with
  | inl unnamed =>
      have few := numbered unnamed
      rw [unnamed] at same
      have bits := (formatInt_eq_iff i j).mp (List.cons.inj same).2
      omega
  | inr named =>
      rw [← named] at i_inside j_inside
      rw [List.getElem?_eq_getElem i_inside, List.getElem?_eq_getElem j_inside] at same
      exact (nodup.getElem_inj_iff).mp same

/-! ## Distinct identifiers -/

/-- Members that are told apart have different names, or few enough numbers. -/
theorem members_of_injective {type : RecordType}
    (injective : ∀ i j, i < type.members → j < type.members →
      getRecordFieldName type i = getRecordFieldName type j → i = j) :
    type.names.Nodup ∧ (type.names = [] → type.members ≤ 2 ^ 32) := by
  constructor
  · cases type.counts with
    | inl unnamed =>
        rw [unnamed]
        exact List.nodup_nil
    | inr named =>
        rw [List.nodup_iff_injective_get]
        intro i j same
        have i_name := List.getElem?_eq_getElem i.isLt
        have j_name := List.getElem?_eq_getElem j.isLt
        refine Fin.ext (injective i j (named ▸ i.isLt) (named ▸ j.isLt) ?_)
        rw [getRecordFieldName, getRecordFieldName, i_name, j_name]
        exact same
  · intro unnamed
    by_contra many
    have same : getRecordFieldName type 0 = getRecordFieldName type (2 ^ 32) := by
      rw [getRecordFieldName, getRecordFieldName, unnamed]
      exact congrArg ('_' :: ·) ((formatInt_eq_iff 0 (2 ^ 32)).mpr (by norm_num))
    have zero := injective 0 (2 ^ 32) (by omega) (by omega) same
    omega

theorem Separate.of_injective {config : Config} {m : Module} {work : Nat → List Step}
    (injective : Injective (emitC config m work)) : Separate config m (m.steps work) := by
  have apart : ∀ {scope entity entity' identifier},
      Named config m (m.steps work) ⟨scope, entity, identifier⟩ →
      Named config m (m.steps work) ⟨scope, entity', identifier⟩ → entity = entity' :=
    fun named named' => injective _ ((mem_emitC ..).mpr named) _ ((mem_emitC ..).mpr named') rfl rfl
  constructor
  case declarations =>
    intro place place' decl decl' scope found found' isScope isScope' different alike
    have named : Named config m (m.steps work) _ := .declared place decl scope found isScope
    rw [(legalizeIdentifier_eq_iff _ _).mpr alike] at named
    have same := apart named (.declared place' decl' scope found' isScope')
    exact different (Entity.declaration.inj same)
  case privateGlobals =>
    intro cuda place place' decl decl' found found' collected different
    have named : Named config m (m.steps work) _ := .collected place decl cuda found collected
    refine ⟨fun collected' identifier => ?_, fun isScope' identifier => ?_⟩
    · rw [identifier] at named
      have same := apart named (.collected place' decl' cuda found' collected')
      exact different (Entity.declaration.inj same)
    · rw [identifier] at named
      have same := apart named (.declared place' decl' _ found' isScope')
      exact different (Entity.declaration.inj same)
  case generated =>
    intro place decl entity str n found isScope numbered same
    have named : Named config m (m.steps work) _ := .declared place decl .file found isScope
    rw [same] at named
    have isDeclaration := apart named (.numbered _ _ _ _ numbered)
    cases numbered.scope_cases with
    | inl inFunction => exact nomatch inFunction.choose_spec
    | inr generated => exact nomatch isDeclaration.trans generated.2
  case numbers =>
    intro scope entity entity' str n k numbered numbered' bits
    have named := Named.numbered _ _ _ _ numbered
    rw [(suffixed_eq_iff str str n k).mpr ⟨rfl, bits⟩] at named
    exact apart named (.numbered _ _ _ _ numbered')
  case members =>
    intro scope type laidOut
    refine members_of_injective fun i j i_inside j_inside same => ?_
    have named := Named.member scope type i laidOut i_inside
    rw [same] at named
    exact Entity.member.inj (apart named (.member scope type j laidOut j_inside))

section Pairs

variable {config : Config} {m : Module} {steps : List Step} (separate : Separate config m steps)
include separate

theorem Separate.declared_declared {place place' : Nat} {decl decl' : Declaration} {scope : CScope}
    (found : m.declarations[place]? = some decl) (found' : m.declarations[place']? = some decl')
    (isScope : decl.scope config = some scope) (isScope' : decl'.scope config = some scope)
    (same : legalizeIdentifier (some decl.name) = legalizeIdentifier (some decl'.name)) :
    place = place' := by
  by_contra different
  exact separate.declarations place place' decl decl' scope found found' isScope isScope' different
    ((legalizeIdentifier_eq_iff _ _).mp same)

theorem Separate.collected_declared {place place' : Nat} {decl decl' : Declaration}
    (cuda : config.dialect = .cuda) (found : m.declarations[place]? = some decl)
    (collected : decl.isPrivateGlobal) (found' : m.declarations[place']? = some decl')
    (isScope' : decl'.scope config = some .privateGlobals)
    (same : decl.name = legalizeIdentifier (some decl'.name)) : place = place' := by
  by_contra different
  exact (separate.privateGlobals cuda place place' decl decl' found found' collected different).2
    isScope' same

theorem Separate.collected_collected {place place' : Nat} {decl decl' : Declaration}
    (cuda : config.dialect = .cuda) (found : m.declarations[place]? = some decl)
    (collected : decl.isPrivateGlobal) (found' : m.declarations[place']? = some decl')
    (collected' : decl'.isPrivateGlobal) (same : decl.name = decl'.name) : place = place' := by
  by_contra different
  exact (separate.privateGlobals cuda place place' decl decl' found found' collected different).1
    collected' same

theorem Separate.declared_numbered {place : Nat} {decl : Declaration} {scope : CScope}
    {entity : Entity} {str : Text} {n : Nat} (found : m.declarations[place]? = some decl)
    (isScope : decl.scope config = some scope)
    (numbered : Numbered config m steps scope entity str n) :
    legalizeIdentifier (some decl.name) ≠ suffixed str n := by
  cases Declaration.scope_cases isScope with
  | inl inFile =>
      subst inFile
      exact separate.generated place decl entity str n found isScope numbered
  | inr privateGlobal =>
      have scopes := numbered.scope_cases
      rw [privateGlobal.1] at scopes
      simp at scopes

theorem Separate.numbered_numbered {scope : CScope} {entity entity' : Entity} {str str' : Text}
    {n k : Nat} (numbered : Numbered config m steps scope entity str n)
    (numbered' : Numbered config m steps scope entity' str' k)
    (same : suffixed str n = suffixed str' k) : entity = entity' := by
  have parts := (suffixed_eq_iff str str' n k).mp same
  rw [← parts.1] at numbered'
  exact separate.numbers scope entity entity' str n k numbered numbered' parts.2

theorem Separate.member_member {scope : CScope} {type type' : RecordType} {i j : Nat}
    (laidOut : LaidOut config m steps scope type) (laidOut' : LaidOut config m steps scope type')
    (i_inside : i < type.members) (j_inside : j < type'.members)
    (same : getRecordFieldName type i = getRecordFieldName type' j) : i = j := by
  have one := laidOut.unique laidOut'
  subst one
  have members := separate.members scope type laidOut
  exact getRecordFieldName_injective members.1 members.2 i_inside j_inside same

end Pairs

theorem Separate.injective {config : Config} {m : Module} {work : Nat → List Step}
    (separate : Separate config m (m.steps work)) : Injective (emitC config m work) := by
  intro e inside e' inside' scope identifier
  have named := (mem_emitC ..).mp inside
  have named' := (mem_emitC ..).mp inside'
  cases named with
  | collected place decl cuda found collected =>
      cases named' with
      | collected place' decl' _ found' collected' =>
          exact congrArg Entity.declaration
            (separate.collected_collected cuda found collected found' collected' identifier)
      | declared place' decl' scope' found' isScope' =>
          cases scope
          exact congrArg Entity.declaration
            (separate.collected_declared cuda found collected found' isScope' identifier)
      | numbered scope' entity' str n numbered =>
          cases scope
          exact absurd numbered.scope_cases (by simp)
      | member scope' type i laidOut i_inside => exact absurd scope.symm laidOut.alone.2.2.1
  | declared place decl scope' found isScope =>
      cases named' with
      | collected place' decl' cuda found' collected' =>
          cases scope
          exact congrArg Entity.declaration
            (separate.collected_declared cuda found' collected' found isScope identifier.symm).symm
      | declared place' decl' scope'' found' isScope' =>
          cases scope
          exact congrArg Entity.declaration
            (separate.declared_declared found found' isScope isScope' identifier)
      | numbered scope'' entity' str n numbered =>
          cases scope
          exact absurd identifier (separate.declared_numbered found isScope numbered)
      | member scope'' type i laidOut i_inside =>
          cases scope
          cases Declaration.scope_cases isScope with
          | inl inFile => exact absurd inFile laidOut.alone.1
          | inr privateGlobal => exact absurd privateGlobal.1 laidOut.alone.2.2.1
  | numbered scope' entity str n numbered =>
      cases named' with
      | collected place' decl' cuda found' collected' =>
          cases scope
          exact absurd numbered.scope_cases (by simp)
      | declared place' decl' scope'' found' isScope' =>
          cases scope
          exact absurd identifier.symm (separate.declared_numbered found' isScope' numbered)
      | numbered scope'' entity' str' k numbered' =>
          cases scope
          exact separate.numbered_numbered numbered numbered' identifier
      | member scope'' type i laidOut i_inside =>
          cases scope
          exact absurd numbered (laidOut.not_numbered entity str n)
  | member scope' type i laidOut i_inside =>
      cases named' with
      | collected place' decl' cuda found' collected' => exact absurd scope laidOut.alone.2.2.1
      | declared place' decl' scope'' found' isScope' =>
          cases scope
          cases Declaration.scope_cases isScope' with
          | inl inFile => exact absurd inFile laidOut.alone.1
          | inr privateGlobal => exact absurd privateGlobal.1 laidOut.alone.2.2.1
      | numbered scope'' entity' str k numbered' =>
          cases scope
          exact absurd numbered' (laidOut.not_numbered entity' str k)
      | member scope'' type' j laidOut' j_inside =>
          cases scope
          exact congrArg Entity.member
            (separate.member_member laidOut laidOut' i_inside j_inside identifier)

/-- The identifiers of each scope are distinct exactly when the names of the module are apart. -/
theorem emitC_injective_iff (config : Config) (m : Module) (work : Nat → List Step) :
    Injective (emitC config m work) ↔ Separate config m (m.steps work) :=
  ⟨Separate.of_injective, Separate.injective⟩

/-- Two functions whose names differ in an illegal character. -/
def collidingModule : Module where
  declarations := [.function "a-b".toList [], .function "a_b".toList []]
  ids := 2
  allocated := by simp [Declaration.params]
  distinct := by simp [Declaration.params]

theorem collidingModule_not_injective :
    ¬ Injective (emitC ⟨.c11, false⟩ collidingModule fun _ => []) := by
  intro injective
  have same := injective ⟨.file, .declaration 0, "a_b".toList⟩ (by decide)
    ⟨.file, .declaration 1, "a_b".toList⟩ (by decide) rfl rfl
  exact absurd same (by decide)

end Shady.Identifiers
