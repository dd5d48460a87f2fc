import Shady.Library.Fallible
import Shady.Passes.SubgroupOps

/-!
# Broadcasts give the first lane's value

The functions that are made for the types of a module give every active lane the whole value that
the first active lane has. The tables only grow, and a function is correct in every later table.
-/

set_option autoImplicit false

namespace Shady.SubgroupOps

open Fallible

/-! ## Tables that grow -/

/-- What has been built stays. -/
def State.Extends (s s' : State) : Prop :=
  ∀ fn body, s.bodies.lookup fn = some body → s'.bodies.lookup fn = some body

namespace State

theorem Extends.refl (s : State) : s.Extends s := fun _ _ built => built

theorem Extends.trans {s s' s'' : State} (first : s.Extends s') (second : s'.Extends s'') :
    s.Extends s'' := fun fn body built => second fn body (first fn body built)

end State

/-- In every later table the expression has the value that the first active lane has for `src`. -/
def Gives (config : TypesConfig) (s : State) (type : IrType) (least : Nat) (src e : Expr) : Prop :=
  ∀ s', s.Extends s' → ∀ depth, least ≤ depth → ∀ (sg : Subgroup) (first : Fin sg.size),
    sg.firstActive = some first → ∀ (param : Lanes sg) (v : Value),
      src.eval (s'.run depth) param first = some v → HasType config type v →
        ∀ i, e.eval (s'.run depth) param i = some v

/-- A call of the function for a type. -/
def Correct (config : TypesConfig) (s : State) (type : IrType) : Prop :=
  Gives config s type (sizeOf type) .param (.call type .param)

section Tables
variable {config : TypesConfig} {s s' s'' : State} {type : IrType}

theorem Gives.extends {least : Nat} {src e : Expr} (given : Gives config s type least src e)
    (later : s.Extends s') : Gives config s' type least src e :=
  fun s'' grown => given s'' (later.trans grown)

theorem Correct.extends (correct : Correct config s type) (later : s.Extends s') :
    Correct config s' type := Gives.extends correct later

/-- A function is correct for every argument. -/
theorem Correct.call (correct : Correct config s type) (src : Expr) :
    Gives config s type (sizeOf type) src (.call type src) := by
  intro s' grown depth enough sg first isFirst param v value typed i
  exact correct s' grown depth enough sg first isFirst
    (fun lane => src.eval (s'.run depth) param lane) v value typed i

/-- Functions whose bodies are not built yet are for larger types. -/
structure Ready (config : TypesConfig) (limit : Nat) (s : State) : Prop where
  correct : ∀ fn ∈ s.fns, Correct config s fn ∨ limit ≤ sizeOf fn
  listed : ∀ fn, (s.bodies.lookup fn).isSome → fn ∈ s.fns

/-- New functions are correct, and for smaller types. -/
structure Adds (config : TypesConfig) (limit : Nat) (s s' : State) : Prop where
  grows : s.Extends s'
  fns : ∀ fn ∈ s'.fns, fn ∈ s.fns ∨ Correct config s' fn
  kept : ∀ fn ∈ s.fns, fn ∈ s'.fns
  built : ∀ fn, (s'.bodies.lookup fn).isSome →
    (s.bodies.lookup fn).isSome ∨ sizeOf fn < limit ∧ fn ∈ s'.fns

theorem Adds.refl (limit : Nat) (s : State) : Adds config limit s s :=
  ⟨State.Extends.refl s, fun _ listed => Or.inl listed, fun _ listed => listed,
    fun _ built => Or.inl built⟩

theorem Adds.mono {limit limit' : Nat} (adds : Adds config limit s s') (le : limit ≤ limit') :
    Adds config limit' s s' where
  grows := adds.grows
  fns := adds.fns
  kept := adds.kept
  built fn isBuilt := (adds.built fn isBuilt).imp_right fun small =>
    ⟨Nat.lt_of_lt_of_le small.1 le, small.2⟩

theorem Adds.trans {limit : Nat} (first : Adds config limit s s') (second : Adds config limit s' s'') :
    Adds config limit s s'' where
  grows := first.grows.trans second.grows
  fns fn listed := by
    cases second.fns fn listed with
    | inl earlier =>
        cases first.fns fn earlier with
        | inl before => exact Or.inl before
        | inr correct => exact Or.inr (correct.extends second.grows)
    | inr correct => exact Or.inr correct
  kept fn listed := second.kept fn (first.kept fn listed)
  built fn isBuilt := by
    cases second.built fn isBuilt with
    | inl earlier =>
        exact (first.built fn earlier).imp_right fun small => ⟨small.1, second.kept fn small.2⟩
    | inr small => exact Or.inr small

theorem Ready.mono {limit limit' : Nat} (ready : Ready config limit s) (le : limit' ≤ limit) :
    Ready config limit' s where
  correct fn listed := (ready.correct fn listed).imp_right le.trans
  listed := ready.listed

theorem Ready.adds {limit limit' : Nat} (ready : Ready config limit s)
    (adds : Adds config limit' s s') : Ready config limit s' where
  correct fn listed := by
    cases adds.fns fn listed with
    | inl before =>
        exact (ready.correct fn before).imp_left fun correct => correct.extends adds.grows
    | inr correct => exact Or.inl correct
  listed fn isBuilt := by
    cases adds.built fn isBuilt with
    | inl earlier => exact adds.kept fn (ready.listed fn earlier)
    | inr small => exact small.2

end Tables

/-! ## One function -/

/-- What a generator for a type makes: functions for smaller types, and a body. -/
def Generates (config : Config) (type : IrType) (generate : Typed → Build (Option Typed)) : Prop :=
  ∀ s s' body, Ready config.types (sizeOf type) s →
    generate ⟨.param, type⟩ s = .ok (some body, s') →
      Adds config.types (sizeOf type) s s' ∧
        ∀ depth, sizeOf type ≤ depth + 1 → ∀ s'', s'.Extends s'' → ∀ (sg : Subgroup) (first : Fin sg.size),
          sg.firstActive = some first → ∀ (param : Lanes sg) (v : Value), param first = some v →
            HasType config.types type v → ∀ i, body.expr.eval (s''.run depth) param i = some v

/-- A broadcast that the machine has. -/
theorem gives_broadcastFirst (config : TypesConfig) (s : State) (type : IrType) (least : Nat)
    (src : Expr) : Gives config s type least src (.broadcastFirst scopeSubgroup src) := by
  intro s' _ depth _ sg first isFirst param v value _ i
  simp only [Expr.eval, if_true, isFirst, Option.bind_some]
  exact value

theorem sizeOf_pos (type : IrType) : 0 < sizeOf type := by
  cases type <;> simp

/-- With the body that a generator made, the function of a type is correct. -/
theorem Correct.of_body {config : Config} {type : IrType} {s : State} {body : Expr}
    (found : s.bodies.lookup type = some body)
    (evaluates : ∀ depth, sizeOf type ≤ depth + 1 → ∀ s', s.Extends s' → ∀ (sg : Subgroup)
      (first : Fin sg.size), sg.firstActive = some first → ∀ (param : Lanes sg) (v : Value),
        param first = some v → HasType config.types type v →
          ∀ i, body.eval (s'.run depth) param i = some v) :
    Correct config.types s type := by
  intro s' grown depth enough sg first isFirst param v value typed i
  obtain ⟨depth, rfl⟩ := Nat.exists_eq_succ_of_ne_zero
    (Nat.pos_iff_ne_zero.mp (Nat.lt_of_lt_of_le (sizeOf_pos type) enough))
  simp only [Expr.eval, State.run, grown type body found, Option.bind_some]
  exact evaluates depth enough s' grown sg first isFirst _ v value typed i

theorem buildSubgroupFirst_spec {config : Config} {generate : Typed → Build (Option Typed)}
    {src e : Typed} {s s' : State} (generates : Generates config src.type generate)
    (ready : Ready config.types (sizeOf src.type + 1) s)
    (built : buildSubgroupFirst config scopeSubgroup generate src s = .ok (e, s')) :
    Adds config.types (sizeOf src.type + 1) s s' ∧
      Gives config.types s' src.type (sizeOf src.type) src.expr e.expr ∧ e.type = src.type := by
  rw [buildSubgroupFirst] at built
  by_cases natively : isSupportedNatively config src.type = true
  · rw [if_pos natively] at built
    cases built
    exact ⟨Adds.refl _ _, gives_broadcastFirst config.types _ src.type _ src.expr, rfl⟩
  rw [if_neg natively, if_neg (by simp)] at built
  by_cases listed : src.type ∈ s.fns
  · rw [if_pos listed] at built
    cases built
    refine ⟨Adds.refl _ _, ?_, rfl⟩
    cases ready.correct src.type listed with
    | inl correct => exact correct.call src.expr
    | inr larger => exact absurd larger (Nat.not_succ_le_self _)
  rw [if_neg listed] at built
  obtain ⟨⟨result, t⟩, ran, built⟩ := bind_eq_ok.mp built
  cases result with
  | none => exact nomatch built
  | some body =>
      cases built
      -- the function itself is not built yet
      have started : Ready config.types (sizeOf src.type) { s with fns := src.type :: s.fns } := by
        constructor
        · intro fn member
          cases List.mem_cons.mp member with
          | inl same => exact Or.inr (same ▸ le_rfl)
          | inr earlier =>
              cases ready.correct fn earlier with
              | inl correct => exact Or.inl correct
              | inr larger => exact Or.inr (Nat.le_of_succ_le larger)
        · exact fun fn isBuilt => List.mem_cons_of_mem _ (ready.listed fn isBuilt)
      obtain ⟨adds, evaluates⟩ := generates _ t body started ran
      have fresh : t.bodies.lookup src.type = none := by
        rw [← Option.not_isSome_iff_eq_none]
        intro isBuilt
        cases adds.built src.type isBuilt with
        | inl earlier => exact listed (ready.listed src.type earlier)
        | inr small => exact Nat.lt_irrefl _ small.1
      have grows : t.Extends { t with bodies := (src.type, body.expr) :: t.bodies } := by
        intro fn old found
        have other : (fn == src.type) = false := by
          rw [beq_eq_false_iff_ne]
          intro same
          rw [same, fresh] at found
          cases found
        rw [List.lookup_cons, other]
        exact found
      have correct : Correct config.types
          { t with bodies := (src.type, body.expr) :: t.bodies } src.type := by
        apply @Correct.of_body config src.type _ body.expr
        · simp
        · exact fun depth enough s'' grown => evaluates depth enough s'' (grows.trans grown)
      refine ⟨⟨?_, ?_, ?_, ?_⟩, correct.call src.expr, rfl⟩
      · exact adds.grows.trans grows
      · intro fn member
        cases adds.fns fn member with
        | inl earlier =>
            cases List.mem_cons.mp earlier with
            | inl same => exact Or.inr (same ▸ correct)
            | inr before => exact Or.inl before
        | inr done => exact Or.inr (done.extends grows)
      · exact fun fn before => adds.kept fn (List.mem_cons_of_mem _ before)
      · intro fn isBuilt
        by_cases same : fn = src.type
        · rw [same]
          exact Or.inr ⟨Nat.lt_succ_self _, adds.kept _ List.mem_cons_self⟩
        · have other : (fn == src.type) = false := beq_eq_false_iff_ne.mpr same
          rw [List.lookup_cons, other] at isBuilt
          exact (adds.built fn isBuilt).imp_right fun small =>
            ⟨Nat.lt_succ_of_lt small.1, small.2⟩

/-! ## Halves of words -/

theorem halves_recombine (word : BitVec 64) :
    (word.setWidth 32).setWidth 64 ||| ((word >>> 32).setWidth 32).setWidth 64 <<< 32 = word := by
  ext i inWord
  simp only [BitVec.getElem_or, BitVec.getElem_setWidth, BitVec.getElem_shiftLeft,
    BitVec.getLsbD_setWidth, BitVec.getLsbD_ushiftRight]
  by_cases low : i < 32
  · simp [low, BitVec.getLsbD_eq_getElem inWord]
  · have high : i - 32 < 32 := by omega
    have back : 32 + (i - 32) = i := by omega
    simp [low, high, back, BitVec.getLsbD_eq_getElem inWord]

theorem ensure_eq_ok {condition : Bool} {text : String} {u : Unit} :
    ensure condition text = .ok u ↔ condition = true := by
  cases condition <;> simp [ensure]

theorem reinterpret_eq_ok {config : Config} {dst : IrType} {src e : Typed}
    (made : reinterpret config dst src = .ok e) :
    e = ⟨.reinterpret src.expr, dst⟩ ∧ src.type.isReinterpretCastLegal config.types dst = .ok true := by
  obtain ⟨_, _, made⟩ := bind_eq_ok.mp made
  obtain ⟨legal, checked, made⟩ := bind_eq_ok.mp made
  obtain ⟨_, isLegal, made⟩ := bind_eq_ok.mp made
  rw [ensure_eq_ok] at isLegal
  cases made
  exact ⟨rfl, isLegal ▸ checked⟩

theorem convertIntZeroExtend_eq_ok {config : Config} {dst : IntType} {src e : Typed}
    (made : convertIntZeroExtend config dst src = .ok e) :
    ∃ width, e = ⟨.reinterpret (.convert ⟨width, false⟩ ⟨dst.width, false⟩ (.reinterpret src.expr)),
      .int dst.width dst.isSigned⟩ := by
  rw [convertIntZeroExtend] at made
  cases isInt : src.type with
  | int width isSigned =>
      rw [isInt] at made
      obtain ⟨val, first, made⟩ := bind_eq_ok.mp made
      obtain ⟨val', second, made⟩ := bind_eq_ok.mp made
      obtain ⟨rfl, _⟩ := reinterpret_eq_ok first
      obtain ⟨legal, _, second⟩ := bind_eq_ok.mp second
      obtain ⟨_, _, second⟩ := bind_eq_ok.mp second
      cases second
      exact ⟨width, (reinterpret_eq_ok made).1⟩
  | _ => rw [isInt] at made; exact nomatch made

/-- A half has 32 bits, so the machine has its broadcast. -/
theorem buildSubgroupFirst_int32 (config : Config) (e : Expr) (s : State) :
    buildSubgroupFirst config scopeSubgroup noGenerator ⟨e, .int .intTy32 true⟩ s =
      .ok (⟨.broadcastFirst scopeSubgroup e, .int .intTy32 true⟩, s) := by
  rw [buildSubgroupFirst, if_pos]
  simp [isSupportedNatively]

/-- What `generateInt64` makes of an expression. -/
theorem generateInt64_eq_ok {config : Config} {isSigned : Bool} {param : Typed} {s s' : State}
    {result : Option Typed}
    (generated : generateInt64 config scopeSubgroup isSigned param s = .ok (result, s')) :
    s' = s ∧ ∃ w w₁ w₂ w₃ : IntSizes, ∃ body, result = some body ∧
      body.type = .int .intTy64 isSigned ∧ body.expr =
        .or
          (.reinterpret (.convert ⟨w, false⟩ ⟨.intTy64, false⟩ (.reinterpret
            (.broadcastFirst scopeSubgroup
              (.reinterpret (.convert ⟨w₁, false⟩ ⟨.intTy32, false⟩ (.reinterpret param.expr)))))))
          (.lshift
            (.reinterpret (.convert ⟨w₂, false⟩ ⟨.intTy64, false⟩ (.reinterpret
              (.broadcastFirst scopeSubgroup
                (.reinterpret (.convert ⟨w₃, false⟩ ⟨.intTy32, false⟩ (.reinterpret
                  (.rshiftLogical param.expr (int32Literal 32).expr))))))))
            (int32Literal 32).expr) := by
  rw [generateInt64] at generated
  obtain ⟨shifted, first, generated⟩ := bind_eq_ok.mp generated
  obtain ⟨hi, second, generated⟩ := bind_eq_ok.mp generated
  obtain ⟨lo, third, generated⟩ := bind_eq_ok.mp generated
  obtain ⟨w₃, rfl⟩ := convertIntZeroExtend_eq_ok second
  obtain ⟨w₁, rfl⟩ := convertIntZeroExtend_eq_ok third
  obtain ⟨⟨hi, t⟩, fourth, generated⟩ := bind_eq_ok.mp generated
  cases (buildSubgroupFirst_int32 config _ s).symm.trans fourth
  obtain ⟨⟨lo, t⟩, fifth, generated⟩ := bind_eq_ok.mp generated
  cases (buildSubgroupFirst_int32 config _ s).symm.trans fifth
  obtain ⟨hi, sixth, generated⟩ := bind_eq_ok.mp generated
  obtain ⟨lo, seventh, generated⟩ := bind_eq_ok.mp generated
  obtain ⟨w₂, rfl⟩ := convertIntZeroExtend_eq_ok sixth
  obtain ⟨w, rfl⟩ := convertIntZeroExtend_eq_ok seventh
  obtain ⟨raised, eighth, generated⟩ := bind_eq_ok.mp generated
  obtain ⟨word, ninth, generated⟩ := bind_eq_ok.mp generated
  obtain ⟨_, _, first⟩ := bind_eq_ok.mp first
  obtain ⟨_, _, first⟩ := bind_eq_ok.mp first
  obtain ⟨_, _, eighth⟩ := bind_eq_ok.mp eighth
  obtain ⟨_, _, eighth⟩ := bind_eq_ok.mp eighth
  obtain ⟨_, _, ninth⟩ := bind_eq_ok.mp ninth
  obtain ⟨_, _, ninth⟩ := bind_eq_ok.mp ninth
  cases first
  cases eighth
  cases ninth
  cases generated
  exact ⟨rfl, w, w₁, w₂, w₃, _, rfl, rfl, rfl⟩

theorem int32Literal_eval {sg : Subgroup} (fns : IrType → Lanes sg → Lanes sg) (param : Lanes sg)
    (i : Fin sg.size) : (int32Literal 32).expr.eval fns param i = some (.bits 32 32) := by
  rfl

/-- The halves of the first lane's word make up the word again. -/
theorem generateInt64_eval {config : Config} {isSigned : Bool} {param : Typed} {s s' : State}
    {result : Option Typed}
    (generated : generateInt64 config scopeSubgroup isSigned param s = .ok (result, s')) :
    s' = s ∧ ∃ body, result = some body ∧ body.type = .int .intTy64 isSigned ∧
      ∀ (sg : Subgroup) (first : Fin sg.size), sg.firstActive = some first →
        ∀ (fns : IrType → Lanes sg → Lanes sg) (lanes : Lanes sg) (word : BitVec 64),
          param.expr.eval fns lanes first = some (.bits 64 word) →
            ∀ i, body.expr.eval fns lanes i = some (.bits 64 word) := by
  obtain ⟨same, w, w₁, w₂, w₃, body, isSome, type, expr⟩ := generateInt64_eq_ok generated
  refine ⟨same, body, isSome, type, ?_⟩
  intro sg first isFirst fns lanes word value i
  rw [expr]
  simp only [Expr.eval, if_true, isFirst, Option.bind_some, value, int32Literal_eval, Value.shift,
    Value.convert, Value.or, Bool.false_eq_true, if_false]
  change some (Value.bits 64 ((word.setWidth 32).setWidth 64 |||
    (((word >>> 32).setWidth 32).setWidth 64 <<< 32).setWidth 64)) = _
  rw [BitVec.setWidth_eq, halves_recombine]

/-! ## Elements -/

/-- A nominal type, or the type itself. -/
def original (nominal : Option Nat) (type : IrType) : IrType :=
  nominal.elim type (.typeDeclRef · type)

theorem hasType_original {config : TypesConfig} {nominal : Option Nat} {type : IrType} {v : Value} :
    HasType config (original nominal type) v ↔ HasType config type v := by
  cases nominal with
  | none => rfl
  | some decl => simp only [original, Option.elim, HasType]

theorem enterCompositeType_original (nominal : Option Nat) (type : IrType) (selector : Selector) :
    (original nominal type).enterCompositeType selector = type.enterCompositeType selector := by
  cases nominal with
  | none => rfl
  | some decl => simp only [original, Option.elim, IrType.enterCompositeType]

theorem sizeOf_le_original (nominal : Option Nat) (type : IrType) :
    sizeOf type ≤ sizeOf (original nominal type) := by
  cases nominal with
  | none => exact le_rfl
  | some decl => simp [original]

/-- Below 2^32 the index of an element is its position. -/
theorem index_value {i : Nat} (small : i < 2 ^ 32) :
    (BitVec.ofNat 32 i).toNat = i ∧
      (getIntLiteralValue ⟨.intTy32, false, (BitVec.ofNat 32 i).setWidth 64⟩ false).toNat = i := by
  have word : (BitVec.ofNat 32 i).toNat = i := by
    rw [BitVec.toNat_ofNat, Nat.mod_eq_of_lt small]
  refine ⟨word, ?_⟩
  simp only [getIntLiteralValue, Bool.false_eq_true, if_false]
  rw [BitVec.toNat_and, BitVec.toNat_setWidth, word,
    show (0xFFFFFFFF#64).toNat = 2 ^ 32 - 1 from rfl, Nat.and_two_pow_sub_one_eq_mod]
  omega

theorem extractHelper_eq {base : Typed} {type : IrType} {i : Nat} (small : i < 2 ^ 32)
    (entered : ∀ literal, (getIntLiteralValue literal false).toNat = i →
      base.type.enterCompositeType (.literal literal) = .ok type) :
    extractHelper base i = .ok ⟨.extract base.expr i, type⟩ := by
  obtain ⟨word, value⟩ := index_value small
  simp only [extractHelper]
  rw [entered _ value, word]
  rfl

theorem stackArray_eq_ok {count : Nat} {u : Unit} (made : stackArray count = .ok u) :
    count < 2 ^ 32 := by
  by_contra large
  rw [stackArray, if_neg large] at made
  exact nomatch made

theorem member?_lt {members : IrTypes} : ∀ {j : Nat} {m : IrType}, members.member? j = some m →
    j < members.toList.length := by
  induction members using IrTypes.rec (motive_1 := fun _ => True) with
  | nil => exact fun member => nomatch member
  | cons head tail _ ih =>
      intro j m member
      cases j with
      | zero => exact Nat.zero_lt_succ _
      | succ j => exact Nat.succ_lt_succ (ih member)
  | _ => trivial

theorem sizeOf_member {members : IrTypes} : ∀ {j : Nat} {m : IrType}, members.member? j = some m →
    sizeOf m < sizeOf members := by
  induction members using IrTypes.rec (motive_1 := fun _ => True) with
  | nil => exact fun member => nomatch member
  | cons head tail _ ih =>
      intro j m member
      cases j with
      | zero =>
          cases member
          simp only [IrTypes.cons.sizeOf_spec]
          omega
      | succ j =>
          have smaller := ih member
          simp only [IrTypes.cons.sizeOf_spec]
          omega
  | _ => trivial

theorem compositeHelper_eq_ok {type : IrType} {elements : List Typed} {e : Typed}
    (made : compositeHelper type elements = .ok e) :
    e.expr = .composite (Exprs.ofList (elements.map Typed.expr)) := by
  obtain ⟨_, _, made⟩ := bind_eq_ok.mp made
  obtain ⟨_, _, made⟩ := bind_eq_ok.mp made
  obtain ⟨_, _, made⟩ := bind_eq_ok.mp made
  obtain ⟨_, _, made⟩ := bind_eq_ok.mp made
  cases made
  rfl

/-- Every lane has for the expressions the elements, from position `i` on, of the composite that the
first active lane has for `base`. -/
def ElementsGiven (s : State) (least i : Nat) (typed : List Value → Prop) (base : Expr)
    (es : List Typed) : Prop :=
  ∀ depth, least ≤ depth + 1 → ∀ s', s.Extends s' → ∀ (sg : Subgroup) (first : Fin sg.size),
    sg.firstActive = some first → ∀ (lanes : Lanes sg) (elements : List Value),
      base.eval (s'.run depth) lanes first = some (.composite elements) →
        typed (elements.drop i) → ∀ lane,
          (Exprs.ofList (es.map Typed.expr)).eval (s'.run depth) lanes lane = some (elements.drop i)

/-- One element, and those behind it. -/
theorem ElementsGiven.cons {config : TypesConfig} {s s' : State} {least i : Nat} {type : IrType}
    {typed : List Value → Prop} {base : Expr} {e : Typed} {es : List Typed}
    (given : Gives config s type (sizeOf type) (.extract base i) e.expr) (smaller : sizeOf type < least)
    (later : s.Extends s') (rest : ElementsGiven s' least (i + 1) typed base es) :
    ElementsGiven s' least i
      (fun values => ∃ v vs, values = v :: vs ∧ HasType config type v ∧ typed vs) base (e :: es) := by
  intro depth enough s'' grown sg first isFirst lanes elements value hasTypes lane
  obtain ⟨v, vs, split, hasType, others⟩ := hasTypes
  have position : elements[i]? = some v := by
    rw [← List.head?_drop, split, List.head?_cons]
  have tail : elements.drop (i + 1) = vs := by
    rw [← List.tail_drop, split, List.tail_cons]
  have head := given s'' (later.trans grown) depth (by omega) sg first isFirst lanes v
    (by simp only [Expr.eval, value, Option.bind_some, Value.element?, position]) hasType lane
  have behind := rest depth enough s'' grown sg first isFirst lanes elements value
    (tail ▸ others) lane
  simp only [List.map_cons, Exprs.ofList, Exprs.eval, head, behind, Option.bind_some,
    Option.map_some, tail, split]

theorem generateElements_spec {config : Config} {elementType : IrType} {limit : Nat}
    {generate : Typed → Build (Option Typed)} (generates : Generates config elementType generate)
    (smaller : sizeOf elementType < limit) {base : Typed} {count : Nat} :
    ∀ {i : Nat} {s s' : State} {es : List Typed},
      (∀ j, j < count → extractHelper base (i + j) = .ok ⟨.extract base.expr (i + j), elementType⟩) →
      Ready config.types limit s →
      generateElements (buildSubgroupFirst config scopeSubgroup generate) base i count s =
        .ok (es, s') →
      Adds config.types limit s s' ∧
        ElementsGiven s' limit i (fun values => values.length = count ∧
          ∀ v ∈ values, HasType config.types elementType v) base.expr es := by
  induction count with
  | zero =>
      intro i s s' es _ _ generated
      cases generated
      refine ⟨Adds.refl _ _, ?_⟩
      intro depth _ s'' _ sg first _ lanes elements _ typed lane
      rw [List.length_eq_zero_iff.mp typed.1]
      rfl
  | succ count ih =>
      intro i s s' es extracts ready generated
      obtain ⟨e, extracted, generated⟩ := bind_eq_ok.mp generated
      obtain ⟨⟨head, t⟩, first, generated⟩ := bind_eq_ok.mp generated
      obtain ⟨⟨tail, t'⟩, second, generated⟩ := bind_eq_ok.mp generated
      cases generated
      cases (extracts 0 (Nat.zero_lt_succ _)).symm.trans extracted
      obtain ⟨adds, given, _⟩ := @buildSubgroupFirst_spec config generate
        ⟨.extract base.expr i, elementType⟩ head s t generates (ready.mono smaller) first
      obtain ⟨more, rest⟩ := ih (fun j below => by
        have shifted := extracts (j + 1) (Nat.succ_lt_succ below)
        rwa [show i + (j + 1) = i + 1 + j by omega] at shifted) (ready.adds adds) second
      refine ⟨(adds.mono smaller).trans more, ?_⟩
      intro depth enough s'' grown sg first isFirst lanes elements value typed lane
      refine (ElementsGiven.cons given smaller more.grows rest) depth enough s'' grown sg first isFirst
        lanes elements value ?_ lane
      cases split : elements.drop i with
      | nil => rw [split] at typed; exact nomatch typed.1
      | cons v vs =>
          rw [split] at typed
          exact ⟨v, vs, rfl, typed.2 v List.mem_cons_self, Nat.succ.inj typed.1,
            fun x member => typed.2 x (List.mem_cons_of_mem v member)⟩

/-! ## Every type -/

theorem hasType_int64 {config : TypesConfig} {isSigned : Bool} {v : Value}
    (typed : HasType config (.int .intTy64 isSigned) v) : ∃ word : BitVec 64, v = .bits 64 word := by
  cases v with
  | bits w word =>
      simp only [HasType] at typed
      subst typed
      exact ⟨word, rfl⟩
  | bool b => simp [HasType] at typed
  | composite elements => simp [HasType] at typed

/-- Only a pointer of 64 bits is reinterpreted as an integer of 64 bits. -/
theorem hasType_ptr {config : TypesConfig} {nominal : Option Nat} {pointedType : IrType}
    {addressSpace : AddressSpace} {isReference : Bool} {v : Value}
    (legal : (original nominal (.ptr pointedType addressSpace isReference)).isReinterpretCastLegal
      config uint64Type = .ok true)
    (typed : HasType config (.ptr pointedType addressSpace isReference) v) :
    ∃ word : BitVec 64, v = .bits 64 word := by
  have size : config.ptrSize.bits = 64 := by
    cases nominal with
    | some decl =>
        obtain ⟨_, _, legal⟩ := bind_eq_ok.mp legal
        simp [original, uint64Type, IrType.isArithmType, IrType.isPhysicalPtrType, pure,
          Except.pure] at legal
    | none =>
        obtain ⟨_, _, legal⟩ := bind_eq_ok.mp legal
        rw [if_neg (by simp [original, uint64Type])] at legal
        cases isReference with
        | true =>
            simp [original, IrType.isArithmType, IrType.isPhysicalPtrType, pure, Except.pure] at legal
        | false =>
            rw [if_neg (by simp [original, IrType.isPhysicalPtrType]),
              if_neg (by simp [uint64Type, IrType.isArithmType])] at legal
            obtain ⟨_, widths, _⟩ := bind_eq_ok.mp legal
            rw [ensure_eq_ok, decide_eq_true_eq] at widths
            simp only [original, Option.elim, IrType.bitwidth, uint64Type] at widths
            split at widths
            · exact Option.some.inj widths
            · exact nomatch widths
  cases v with
  | bits w word =>
      simp only [HasType, size] at typed
      subst typed
      exact ⟨word, rfl⟩
  | bool b => simp [HasType] at typed
  | composite elements => simp [HasType] at typed

theorem haveTypes_cons {config : TypesConfig} {member : IrType} {members : IrTypes}
    {values : List Value} (typed : HaveTypes config (.cons member members) values) :
    ∃ v vs, values = v :: vs ∧ HasType config member v ∧ HaveTypes config members vs := by
  cases values with
  | nil => simp [HaveTypes] at typed
  | cons v vs =>
      simp only [HaveTypes] at typed
      exact ⟨v, vs, rfl, typed⟩

mutual
/-- The generator for a type makes a body that gives the first active lane's value. -/
theorem generate_spec (config : Config) : ∀ (type : IrType) (nominal : Option Nat),
    Generates config (original nominal type) (generate config scopeSubgroup nominal type)
  | .typeDeclRef decl body, none => by
      intro s s' made ready generated
      rw [generate] at generated
      exact generate_spec config body (some decl) s s' made ready generated
  | .record members special, nominal => by
      intro s s' made ready generated
      rw [generate] at generated
      obtain ⟨_, _, generated⟩ := bind_eq_ok.mp generated
      obtain ⟨_, elementTypes, generated⟩ := bind_eq_ok.mp generated
      cases elementTypes
      obtain ⟨_, count, generated⟩ := bind_eq_ok.mp generated
      have small := stackArray_eq_ok count
      obtain ⟨⟨elements, t⟩, inner, generated⟩ := bind_eq_ok.mp generated
      obtain ⟨result, composed, generated⟩ := bind_eq_ok.mp generated
      cases generated
      obtain ⟨adds, given⟩ := generateMembers_spec config members
        (sizeOf (original nominal (.record members special)))
        ⟨.param, original nominal (.record members special)⟩ 0 s s' elements (by
          intro j m member
          rw [Nat.zero_add]
          refine ⟨extractHelper_eq (Nat.lt_trans (member?_lt member) small) ?_, ?_⟩
          · intro literal position
            rw [enterCompositeType_original]
            simp only [IrType.enterCompositeType, Selector.resolved, position, member]
          · have inRecord := sizeOf_member member
            have whole := sizeOf_le_original nominal (.record members special)
            simp only [IrType.record.sizeOf_spec] at whole
            omega) ready inner
      refine ⟨adds, ?_⟩
      intro depth enough s'' grown sg first isFirst lanes v value typed i
      rw [hasType_original] at typed
      cases v with
      | composite elements' =>
          simp only [HasType] at typed
          rw [compositeHelper_eq_ok composed]
          simp only [Expr.eval]
          rw [given depth enough s'' grown sg first isFirst lanes elements' value typed i]
          rfl
      | _ => simp [HasType] at typed
  | .arr elementType size, nominal => by
      intro s s' made ready generated
      rw [generate] at generated
      obtain ⟨elementTypes, found, generated⟩ := bind_eq_ok.mp generated
      obtain ⟨_, count, generated⟩ := bind_eq_ok.mp generated
      have small := stackArray_eq_ok count
      obtain ⟨⟨elements, t⟩, inner, generated⟩ := bind_eq_ok.mp generated
      obtain ⟨result, composed, generated⟩ := bind_eq_ok.mp generated
      cases generated
      obtain ⟨adds, given⟩ := @generateElements_spec config elementType
        (sizeOf (original nominal (.arr elementType size))) _ (generate_spec config elementType none)
        (by
          have whole := sizeOf_le_original nominal (.arr elementType size)
          simp only [IrType.arr.sizeOf_spec] at whole
          change sizeOf elementType < sizeOf (original nominal (.arr elementType size))
          omega)
        ⟨.param, original nominal (.arr elementType size)⟩ _ 0 s s' elements (by
          intro j below
          rw [Nat.zero_add]
          refine extractHelper_eq (Nat.lt_trans below small) ?_
          intro literal _
          rw [enterCompositeType_original]
          rfl) ready inner
      refine ⟨adds, ?_⟩
      intro depth enough s'' grown sg first isFirst lanes v value typed i
      rw [hasType_original] at typed
      cases size with
      | none => simp [HasType] at typed
      | some size =>
          obtain ⟨_, _, found⟩ := bind_eq_ok.mp found
          cases found
          cases v with
          | composite elements' =>
              simp only [HasType] at typed
              rw [compositeHelper_eq_ok composed]
              simp only [Expr.eval]
              rw [given depth enough s'' grown sg first isFirst lanes elements' value
                (by simpa using typed) i]
              rfl
          | _ => simp [HasType] at typed
  | .int width isSigned, nominal => by
      intro s s' made ready generated
      rw [generate] at generated
      by_cases wide : width = .intTy64
      · subst wide
        rw [if_pos rfl] at generated
        obtain ⟨rfl, body, isSome, _, evaluates⟩ := generateInt64_eval generated
        cases isSome
        refine ⟨Adds.refl _ _, ?_⟩
        intro depth _ s'' _ sg first isFirst lanes v value typed i
        rw [hasType_original] at typed
        obtain ⟨word, rfl⟩ := hasType_int64 typed
        exact evaluates sg first isFirst _ lanes word value i
      · rw [if_neg wide] at generated
        exact nomatch generated
  | .ptr pointedType addressSpace isReference, nominal => by
      intro s s' made ready generated
      rw [generate] at generated
      obtain ⟨word, reinterpreted, generated⟩ := bind_eq_ok.mp generated
      obtain ⟨⟨result, t⟩, inner, generated⟩ := bind_eq_ok.mp generated
      obtain ⟨rfl, legal⟩ := reinterpret_eq_ok reinterpreted
      obtain ⟨rfl, body, isSome, _, evaluates⟩ := generateInt64_eval inner
      subst isSome
      obtain ⟨pointer, back, generated⟩ := bind_eq_ok.mp generated
      cases generated
      obtain ⟨rfl, _⟩ := reinterpret_eq_ok back
      refine ⟨Adds.refl _ _, ?_⟩
      intro depth _ s'' _ sg first isFirst lanes v value typed i
      rw [hasType_original] at typed
      obtain ⟨word, rfl⟩ := hasType_ptr legal typed
      exact evaluates sg first isFirst _ lanes word value i
  | .typeDeclRef _ _, some _ => fun _ _ _ _ generated => nomatch generated
  | .maskType, _ => fun _ _ _ _ generated => nomatch generated
  | .noRet, _ => fun _ _ _ _ generated => nomatch generated
  | .float _, _ => fun _ _ _ _ generated => nomatch generated
  | .bool, _ => fun _ _ _ _ generated => nomatch generated
  | .qualified _ _, _ => fun _ _ _ _ generated => nomatch generated
  | .pack _ _, _ => fun _ _ _ _ generated => nomatch generated
  | .fn _ _, _ => fun _ _ _ _ generated => nomatch generated

theorem generateMembers_spec (config : Config) : ∀ (members : IrTypes) (limit : Nat) (base : Typed)
    (i : Nat) (s s' : State) (es : List Typed),
      (∀ j m, members.member? j = some m →
        extractHelper base (i + j) = .ok ⟨.extract base.expr (i + j), m⟩ ∧ sizeOf m < limit) →
      Ready config.types limit s →
      generateMembers config scopeSubgroup i members base s = .ok (es, s') →
      Adds config.types limit s s' ∧
        ElementsGiven s' limit i (HaveTypes config.types members) base.expr es
  | .nil, limit, base, i, s, s', es => by
      intro _ _ generated
      cases generated
      refine ⟨Adds.refl _ _, ?_⟩
      intro depth _ s'' _ sg first _ lanes elements _ typed lane
      cases split : elements.drop i with
      | nil => rfl
      | cons v vs =>
          rw [split] at typed
          simp [HaveTypes] at typed
  | .cons member members, limit, base, i, s, s', es => by
      intro extracts ready generated
      rw [generateMembers] at generated
      obtain ⟨e, extracted, generated⟩ := bind_eq_ok.mp generated
      obtain ⟨⟨head, t⟩, first, generated⟩ := bind_eq_ok.mp generated
      obtain ⟨⟨tail, t'⟩, second, generated⟩ := bind_eq_ok.mp generated
      cases generated
      obtain ⟨here, smaller⟩ := extracts 0 member rfl
      cases here.symm.trans extracted
      obtain ⟨adds, given, _⟩ := @buildSubgroupFirst_spec config _
        ⟨.extract base.expr i, member⟩ head s t (generate_spec config member none)
          (ready.mono smaller) first
      obtain ⟨more, rest⟩ := generateMembers_spec config members limit base (i + 1) t s' tail
        (fun j m found => by
          have shifted := extracts (j + 1) m found
          rwa [show i + (j + 1) = i + 1 + j by omega] at shifted) (ready.adds adds) second
      refine ⟨(adds.mono smaller).trans more, ?_⟩
      intro depth enough s'' grown sg first isFirst lanes elements value typed lane
      exact (ElementsGiven.cons given smaller more.grows rest) depth enough s'' grown sg first isFirst
        lanes elements value (haveTypes_cons typed) lane
end

/-! ## A module -/

theorem Ready.start (config : TypesConfig) (limit : Nat) : Ready config limit ⟨[], []⟩ :=
  ⟨fun _ listed => absurd listed List.not_mem_nil, fun _ isBuilt => nomatch isBuilt⟩

/-- A broadcast of a scope that is not the subgroup adds nothing to the tables. -/
theorem process_other {config : Config} {instr : BroadcastFirst} {e : Typed} {s s' : State}
    (other : instr.scope ≠ scopeSubgroup) (processed : process config instr s = .ok (e, s')) :
    s' = s := by
  rw [process, buildSubgroupFirst] at processed
  by_cases natively : isSupportedNatively config instr.type = true
  · rw [if_pos natively] at processed
    cases processed
    rfl
  · rw [if_neg natively, if_pos other] at processed
    exact nomatch processed

/-- The functions that are listed between two broadcasts of a module are all built. -/
def Settled (config : TypesConfig) (s : State) : Prop := ∀ limit, Ready config limit s

theorem process_spec {config : Config} {instr : BroadcastFirst} {e : Typed} {s s' : State}
    (settled : Settled config.types s) (processed : process config instr s = .ok (e, s')) :
    Settled config.types s' ∧ s.Extends s' ∧ (instr.scope = scopeSubgroup →
      Gives config.types s' instr.type (sizeOf instr.type) .param e.expr) := by
  by_cases scope : instr.scope = scopeSubgroup
  · rw [process, scope] at processed
    obtain ⟨adds, given, _⟩ := @buildSubgroupFirst_spec config _ ⟨.param, instr.type⟩ e s s'
      (generate_spec config instr.type none) (settled _) processed
    exact ⟨fun limit => (settled limit).adds adds, adds.grows, fun _ => given⟩
  · rw [process_other scope processed]
    exact ⟨settled, State.Extends.refl s, fun same => absurd same scope⟩

theorem rewriteModule_spec {config : Config} {instrs : List BroadcastFirst} :
    ∀ {s s' : State} {es : List Typed}, Settled config.types s →
      rewriteModule config instrs s = .ok (es, s') →
      s.Extends s' ∧ List.Forall₂ (fun instr e => instr.scope = scopeSubgroup →
        Gives config.types s' instr.type (sizeOf instr.type) .param e.expr) instrs es := by
  induction instrs with
  | nil =>
      intro s s' es _ rewritten
      cases rewritten
      exact ⟨State.Extends.refl _, .nil⟩
  | cons instr rest ih =>
      intro s s' es settled rewritten
      obtain ⟨⟨first, t⟩, processed, rewritten⟩ := bind_eq_ok.mp rewritten
      obtain ⟨⟨others, t'⟩, later, rewritten⟩ := bind_eq_ok.mp rewritten
      cases rewritten
      obtain ⟨settled, grows, given⟩ := process_spec settled processed
      obtain ⟨more, all⟩ := ih settled later
      exact ⟨grows.trans more, .cons (fun scope => (given scope).extends more) all⟩

theorem broadcasts_of_gives {config : Config} {s : State} {type : IrType} {e : Expr}
    (given : Gives config.types s type (sizeOf type) .param e) : Broadcasts config s type e := by
  refine ⟨sizeOf type, ?_⟩
  intro depth enough sg values typed first isFirst i _
  have active : sg.active first = true := List.find?_some isFirst
  exact given s (State.Extends.refl s) depth enough sg first isFirst _ (values first) rfl
    (typed first active) i

/-- In a module whose broadcasts are all accepted, each broadcast of a subgroup gives every active
lane the whole value of the first active lane. -/
theorem broadcastFirst_exact {config : Config} {instrs : List BroadcastFirst} {es : List Typed}
    {s : State} (accepted : rewriteModule config instrs ⟨[], []⟩ = .ok (es, s)) :
    List.Forall₂ (fun instr e => instr.scope = scopeSubgroup →
      Broadcasts config s instr.type e.expr) instrs es := by
  have start : Settled config.types ⟨[], []⟩ := Ready.start config.types
  exact (rewriteModule_spec start accepted).2.imp fun _ _ given scope =>
    broadcasts_of_gives (given scope)

/-! A nominal type of a pointer and a 64-bit integer, and the pointer again. -/

def emulated : Config where
  types := ⟨fun _ => true, .intTy64, true⟩
  emulateSubgroupOpsExtendedTypes := true

def listPtr : IrType := .ptr (.typeDeclRef 0 .noRet) .global false

def listNode : IrType := .typeDeclRef 0 (.record (.cons listPtr (.cons (.int .intTy64 true) .nil)) .notSpecial)

theorem exists_of_isOk {ε α : Type} {result : Except ε α} (isOk : result.isOk = true) :
    ∃ a, result = .ok a := by
  cases result with
  | ok a => exact ⟨a, rfl⟩
  | error e => exact nomatch isOk

theorem broadcastFirst_list : ∃ es s,
    rewriteModule emulated [⟨3, listNode⟩, ⟨3, listPtr⟩] ⟨[], []⟩ = .ok (es, s) ∧
      List.Forall₂ (fun (instr : BroadcastFirst) (e : Typed) => instr.scope = scopeSubgroup →
        Broadcasts emulated s instr.type e.expr) [⟨3, listNode⟩, ⟨3, listPtr⟩] es := by
  have isOk : (rewriteModule emulated [⟨3, listNode⟩, ⟨3, listPtr⟩] ⟨[], []⟩).isOk = true := by
    decide +kernel
  obtain ⟨⟨es, s⟩, accepted⟩ := exists_of_isOk isOk
  exact ⟨es, s, accepted, broadcastFirst_exact accepted⟩

end Shady.SubgroupOps
