import Shady.Ir.Subtypes
import Mathlib.Data.List.Forall2
import Mathlib.Logic.Relation

/-!
# Subtypes are a preorder

A type is a head (the constructor, with what it holds beside types) and the types inside, each at a
position that keeps the order or turns it round. One type accepts another if its head does and the
types inside accept each other position by position; reflexivity, transitivity and variance follow.
-/

set_option autoImplicit false

namespace Shady.Subtypes

variable {S : Type}

/-- The types of a list. -/
def TypeNodes.toList : TypeNodes S → List (TypeNode S)
  | .nil => []
  | .cons t ts => t :: ts.toList

/-- What a type is without the types inside it. -/
inductive Head (S : Type)
  | plain (t : TypeNode S)
  | qualified (isUniform : Bool)
  | record (special : RecordSpecial)
  | joinPoint
  | fn (params : Nat)
  | bb
  | lam
  | ptr (addressSpace : AddressSpace) (isReference : Bool)
  | arr (size : Option S)
  | pack (width : Nat)
  | image (shape : ImageShape)
  | sampledImage

/-- The head of a type. -/
def TypeNode.head : TypeNode S → Head S
  | .qualified isUniform _ => .qualified isUniform
  | .record _ _ special => .record special
  | .joinPoint _ => .joinPoint
  | .fn params _ => .fn params.toList.length
  | .bb _ => .bb
  | .lam _ => .lam
  | .ptr space _ isReference => .ptr space isReference
  | .arr _ size => .arr size
  | .pack _ width => .pack width
  | .image _ shape => .image shape
  | .sampledImage _ => .sampledImage
  | t => .plain t

/-- Whether a position keeps the order of types or turns it round. -/
inductive Variance
  | covariant
  | contravariant
  deriving DecidableEq

/-- The types inside a type, with the variance of their positions. -/
def TypeNode.inside : TypeNode S → List (Variance × TypeNode S)
  | .qualified _ t => [(.covariant, t)]
  | .record members _ _ => members.toList.map (.covariant, ·)
  | .joinPoint yields => yields.toList.map (.contravariant, ·)
  | .fn params returns =>
      params.toList.map (.contravariant, ·) ++ returns.toList.map (.covariant, ·)
  | .bb params => params.toList.map (.contravariant, ·)
  | .lam params => params.toList.map (.contravariant, ·)
  | .ptr _ pointed _ => [(.covariant, pointed)]
  | .arr element _ => [(.covariant, element)]
  | .pack element _ => [(.covariant, element)]
  | .image sampled _ => [(.covariant, sampled)]
  | .sampledImage t => [(.covariant, t)]
  | _ => []

/-- A size that stands for all sizes: none, or the literal zero. -/
def Unsized (resolve : S → Option IntLiteral) (size : Option S) : Prop :=
  size = none ∨ ∃ s literal, size = some s ∧ resolve s = some literal ∧ literal.value = 0

/-- What a head accepts. -/
def Head.Accepts (resolve : S → Option IntLiteral) : Head S → Head S → Prop
  | .qualified superUniform, .qualified isUniform => superUniform = true → isUniform = true
  | .ptr superSpace superReference, .ptr space isReference =>
      superSpace = space ∧ (isReference = true → superReference = true)
  | .arr superSize, .arr size => Unsized resolve superSize ∨ superSize = size
  | superHead, head => superHead = head

theorem TypeNodes.sizeOf_lt {ts : TypeNodes S} {t : TypeNode S} (held : t ∈ ts.toList) :
    sizeOf t < sizeOf ts := by
  match ts with
  | .nil => exact nomatch held
  | .cons head tail =>
      rw [TypeNodes.cons.sizeOf_spec]
      cases List.mem_cons.mp held with
      | inl same =>
          rw [same]
          omega
      | inr later =>
          have smaller := TypeNodes.sizeOf_lt later
          omega

/-- The types inside a type are smaller. -/
theorem TypeNode.sizeOf_inside {t : TypeNode S} {position : Variance × TypeNode S}
    (held : position ∈ t.inside) : sizeOf position.2 < sizeOf t := by
  cases t with
  | record members names special =>
      obtain ⟨member, among, rfl⟩ := List.mem_map.mp held
      have smaller := TypeNodes.sizeOf_lt among
      simp only [TypeNode.record.sizeOf_spec]
      omega
  | fn params returns =>
      simp only [TypeNode.fn.sizeOf_spec]
      cases List.mem_append.mp held with
      | inl param =>
          obtain ⟨param, among, rfl⟩ := List.mem_map.mp param
          have smaller := TypeNodes.sizeOf_lt among
          simp only
          omega
      | inr result =>
          obtain ⟨result, among, rfl⟩ := List.mem_map.mp result
          have smaller := TypeNodes.sizeOf_lt among
          simp only
          omega
  | joinPoint types | bb types | lam types =>
      obtain ⟨type, among, rfl⟩ := List.mem_map.mp held
      have smaller := TypeNodes.sizeOf_lt among
      simp
      omega
  | qualified _ t | ptr _ t _ | arr t _ | pack t _ | image t _ | sampledImage t =>
      rw [List.mem_singleton.mp held]
      simp +arith
  | _ => exact nomatch held

mutual
/-- A type with another one in the place of a declared name: a context of types and its hole. -/
def fillType (hole : Nat) (content : TypeNode S) : TypeNode S → TypeNode S
  | .typeDeclRef decl => if decl = hole then content else .typeDeclRef decl
  | .qualified isUniform t => .qualified isUniform (fillType hole content t)
  | .record members names special => .record (fillTypes hole content members) names special
  | .joinPoint yields => .joinPoint (fillTypes hole content yields)
  | .fn params returns => .fn (fillTypes hole content params) (fillTypes hole content returns)
  | .bb params => .bb (fillTypes hole content params)
  | .lam params => .lam (fillTypes hole content params)
  | .ptr space pointed isReference => .ptr space (fillType hole content pointed) isReference
  | .arr element size => .arr (fillType hole content element) size
  | .pack element width => .pack (fillType hole content element) width
  | .image sampled shape => .image (fillType hole content sampled) shape
  | .sampledImage t => .sampledImage (fillType hole content t)
  | t => t
def fillTypes (hole : Nat) (content : TypeNode S) : TypeNodes S → TypeNodes S
  | .nil => .nil
  | .cons t ts => .cons (fillType hole content t) (fillTypes hole content ts)
end

theorem toList_fillTypes (hole : Nat) (content : TypeNode S) (ts : TypeNodes S) :
    (fillTypes hole content ts).toList = ts.toList.map (fillType hole content) := by
  match ts with
  | .nil => rfl
  | .cons t ts => exact congrArg _ (toList_fillTypes hole content ts)

/-- Filling keeps the head and fills the types inside. -/
theorem fillType_inside {hole : Nat} (content : TypeNode S) {t : TypeNode S}
    (other : t ≠ .typeDeclRef hole) :
    (fillType hole content t).head = t.head ∧ (fillType hole content t).inside =
      t.inside.map fun position => (position.1, fillType hole content position.2) := by
  cases t with
  | typeDeclRef decl =>
      have apart : decl ≠ hole := fun same => other (same ▸ rfl)
      rw [fillType, if_neg apart]
      exact ⟨rfl, rfl⟩
  | record | joinPoint | fn | bb | lam =>
      simp [fillType, TypeNode.head, TypeNode.inside, toList_fillTypes, Function.comp_def]
  | _ => exact ⟨rfl, rfl⟩

/-- The variance of a position inside a position. -/
def Variance.compose : Variance → Variance → Variance
  | .covariant, variance => variance
  | .contravariant, .covariant => .contravariant
  | .contravariant, .contravariant => .covariant

/-- The type at a place of a type, with the variance of the place. -/
def TypeNode.place (t : TypeNode S) : List Nat → Option (Variance × TypeNode S)
  | [] => .some (.covariant, t)
  | index :: path =>
      t.inside[index]?.bind fun position =>
        (position.2.place path).map fun inner => (position.1.compose inner.1, inner.2)

theorem forall₂_append_iff {α β : Type} {relation : α → β → Prop} {first others : List α}
    {first' others' : List β} (lengths : first.length = first'.length) :
    List.Forall₂ relation (first ++ others) (first' ++ others') ↔
      List.Forall₂ relation first first' ∧ List.Forall₂ relation others others' := by
  induction first generalizing first' with
  | nil =>
      cases first' with
      | nil => simp
      | cons head tail => simp at lengths
  | cons head tail ih =>
      cases first' with
      | nil => simp at lengths
      | cons head' tail' =>
          simp only [List.cons_append, List.forall₂_cons, ih (Nat.succ.inj lengths), and_assoc]

theorem forall₂_trans {α : Type} {relation : α → α → Prop} {first second third : List α}
    (transitive : ∀ b ∈ second, ∀ a c, relation a b → relation b c → relation a c)
    (accepted : List.Forall₂ relation first second)
    (next : List.Forall₂ relation second third) : List.Forall₂ relation first third := by
  induction accepted generalizing third with
  | nil => exact next
  | cons head tail ih =>
      cases next with
      | cons nextHead nextTail =>
          exact .cons (transitive _ List.mem_cons_self _ _ head nextHead)
            (ih (fun b held => transitive b (List.mem_cons_of_mem _ held)) nextTail)

theorem forall₂_getElem? {α β : Type} {relation : α → β → Prop} {first : List α}
    {second : List β} (related : List.Forall₂ relation first second) (index : Nat) :
    Option.Rel relation first[index]? second[index]? := by
  induction related generalizing index with
  | nil => exact .none
  | cons head tail ih =>
      cases index with
      | zero => exact .some head
      | succ index => exact ih index

variable {resolve : S → Option IntLiteral}

theorem Head.Accepts.refl (head : Head S) : Head.Accepts resolve head head := by
  cases head with
  | qualified isUniform => exact id
  | ptr space isReference => exact ⟨rfl, id⟩
  | arr size => exact .inr rfl
  | _ => exact rfl

theorem Head.Accepts.trans {first second third : Head S}
    (accepted : Head.Accepts resolve first second) (next : Head.Accepts resolve second third) :
    Head.Accepts resolve first third := by
  cases first with
  | qualified superUniform =>
      cases second with
      | qualified middle =>
          cases third with
          | qualified isUniform => exact fun super => next (accepted super)
          | _ => exact nomatch next
      | _ => exact nomatch accepted
  | ptr superSpace superReference =>
      cases second with
      | ptr middleSpace middleReference =>
          cases third with
          | ptr space isReference =>
              exact ⟨accepted.1.trans next.1, fun reference => accepted.2 (next.2 reference)⟩
          | _ => exact nomatch next
      | _ => exact nomatch accepted
  | arr superSize =>
      cases second with
      | arr middleSize =>
          cases third with
          | arr size =>
              cases accepted with
              | inl unsized => exact .inl unsized
              | inr same => exact same ▸ next
          | _ => exact nomatch next
      | _ => exact nomatch accepted
  | _ =>
      cases (show _ = second from accepted)
      exact next

theorem unsized_iff {size : Option S} : Unsized resolve size ↔
    (((size.bind resolve).any fun literal => literal.value == 0) || size.isNone) = true := by
  cases size with
  | none => simp [Unsized]
  | some s =>
      cases found : resolve s with
      | none => simp [Unsized, found]
      | some literal => simp [Unsized, found]

variable [DecidableEq S]

/-- The types of a position accept each other, in the order that the position asks for. -/
def Positioned (resolve : S → Option IntLiteral) (super sub : Variance × TypeNode S) : Prop :=
  super.1 = sub.1 ∧ match super.1 with
    | .covariant => isSubtype resolve super.2 sub.2 = true
    | .contravariant => isSubtype resolve sub.2 super.2 = true

/-- The head accepts the head, and the types inside accept each other. -/
def Accepts (resolve : S → Option IntLiteral) (supertype type : TypeNode S) : Prop :=
  Head.Accepts resolve supertype.head type.head ∧
    List.Forall₂ (Positioned resolve) supertype.inside type.inside

theorem areSubtypes_iff (supertypes types : TypeNodes S) :
    areSubtypes resolve supertypes types = true ↔
      List.Forall₂ (fun supertype type => isSubtype resolve supertype type = true)
        supertypes.toList types.toList := by
  match supertypes, types with
  | .nil, .nil => simp [areSubtypes, TypeNodes.toList]
  | .nil, .cons _ _ => simp [areSubtypes, TypeNodes.toList]
  | .cons _ _, .nil => simp [areSubtypes, TypeNodes.toList]
  | .cons supertype supertypes, .cons type types =>
      rw [areSubtypes, Bool.and_eq_true, areSubtypes_iff supertypes types]
      simp [TypeNodes.toList]

theorem covariant_iff {supertype type : TypeNode S} :
    Positioned resolve (.covariant, supertype) (.covariant, type) ↔
      isSubtype resolve supertype type = true :=
  and_iff_right rfl

theorem contravariant_iff {supertype type : TypeNode S} :
    Positioned resolve (.contravariant, supertype) (.contravariant, type) ↔
      isSubtype resolve type supertype = true :=
  and_iff_right rfl

/-- Parameters accept the other way round. -/
theorem contravariant_areSubtypes_iff (supertypes types : TypeNodes S) :
    List.Forall₂ (fun supertype type => isSubtype resolve type supertype = true)
        supertypes.toList types.toList ↔
      areSubtypes resolve types supertypes = true := by
  rw [areSubtypes_iff]
  exact ⟨fun accepted => accepted.flip, fun accepted => accepted.flip⟩

section Positions

variable {super sub : TypeNode S} {supers subs : TypeNodes S}

theorem accepts_one : List.Forall₂ (Positioned resolve) [(.covariant, super)] [(.covariant, sub)] ↔
    isSubtype resolve super sub = true := by
  rw [List.forall₂_cons, covariant_iff]
  exact and_iff_left .nil

theorem accepts_covariant : List.Forall₂ (Positioned resolve)
      (supers.toList.map (.covariant, ·)) (subs.toList.map (.covariant, ·)) ↔
    areSubtypes resolve supers subs = true := by
  simp only [List.forall₂_map_left_iff, List.forall₂_map_right_iff, covariant_iff, areSubtypes_iff]

theorem accepts_contravariant : List.Forall₂ (Positioned resolve)
      (supers.toList.map (.contravariant, ·)) (subs.toList.map (.contravariant, ·)) ↔
    areSubtypes resolve subs supers = true := by
  simp only [List.forall₂_map_left_iff, List.forall₂_map_right_iff, contravariant_iff,
    contravariant_areSubtypes_iff]

end Positions

/-- The parameters of a function accept the other way round, its results as they are. -/
@[simp] theorem accepts_fn {superParams superReturns params returns : TypeNodes S} :
    Accepts resolve (.fn superParams superReturns) (.fn params returns) ↔
      areSubtypes resolve superReturns returns = true ∧
        areSubtypes resolve params superParams = true := by
  constructor
  · intro accepted
    have lengths := Head.fn.inj accepted.1
    have inside := (forall₂_append_iff (by simpa using lengths)).mp accepted.2
    exact ⟨accepts_covariant.mp inside.2, accepts_contravariant.mp inside.1⟩
  · intro accepted
    have lengths := ((areSubtypes_iff params superParams).mp accepted.2).length_eq.symm
    refine ⟨congrArg Head.fn lengths, (forall₂_append_iff (by simpa using lengths)).mpr ?_⟩
    exact ⟨accepts_contravariant.mpr accepted.2, accepts_covariant.mpr accepted.1⟩

@[simp] theorem accepts_qualified {superUniform isUniform : Bool} {super sub : TypeNode S} :
    Accepts resolve (.qualified superUniform super) (.qualified isUniform sub) ↔
      (superUniform = true → isUniform = true) ∧ isSubtype resolve super sub = true :=
  and_congr Iff.rfl accepts_one

@[simp] theorem accepts_record {superMembers members : TypeNodes S} {superNames names : List String}
    {superSpecial special : RecordSpecial} :
    Accepts resolve (.record superMembers superNames superSpecial)
        (.record members names special) ↔
      areSubtypes resolve superMembers members = true ∧ superSpecial = special :=
  (and_congr ⟨Head.record.inj, congrArg Head.record⟩ accepts_covariant).trans and_comm

@[simp] theorem accepts_joinPoint {superYields yields : TypeNodes S} :
    Accepts resolve (.joinPoint superYields) (.joinPoint yields) ↔
      areSubtypes resolve yields superYields = true :=
  (and_iff_right rfl).trans accepts_contravariant

@[simp] theorem accepts_bb {superParams params : TypeNodes S} :
    Accepts resolve (.bb superParams) (.bb params) ↔
      areSubtypes resolve params superParams = true :=
  (and_iff_right rfl).trans accepts_contravariant

@[simp] theorem accepts_lam {superParams params : TypeNodes S} :
    Accepts resolve (.lam superParams) (.lam params) ↔
      areSubtypes resolve params superParams = true :=
  (and_iff_right rfl).trans accepts_contravariant

@[simp] theorem accepts_ptr {superSpace space : AddressSpace} {superPointed pointed : TypeNode S}
    {superReference isReference : Bool} :
    Accepts resolve (.ptr superSpace superPointed superReference)
        (.ptr space pointed isReference) ↔
      superSpace = space ∧ (isReference = true → superReference = true) ∧
        isSubtype resolve superPointed pointed = true :=
  (and_congr Iff.rfl accepts_one).trans and_assoc

@[simp] theorem accepts_arr {superElement element : TypeNode S} {superSize size : Option S} :
    Accepts resolve (.arr superElement superSize) (.arr element size) ↔
      isSubtype resolve superElement element = true ∧
        (Unsized resolve superSize ∨ superSize = size) :=
  (and_congr Iff.rfl accepts_one).trans and_comm

@[simp] theorem accepts_pack {superElement element : TypeNode S} {superWidth width : Nat} :
    Accepts resolve (.pack superElement superWidth) (.pack element width) ↔
      isSubtype resolve superElement element = true ∧ superWidth = width :=
  (and_congr ⟨Head.pack.inj, congrArg Head.pack⟩ accepts_one).trans and_comm

@[simp] theorem accepts_image {superSampled sampled : TypeNode S} {superShape shape : ImageShape} :
    Accepts resolve (.image superSampled superShape) (.image sampled shape) ↔
      isSubtype resolve superSampled sampled = true ∧ superShape = shape :=
  (and_congr ⟨Head.image.inj, congrArg Head.image⟩ accepts_one).trans and_comm

@[simp] theorem accepts_sampledImage {superImage image : TypeNode S} :
    Accepts resolve (.sampledImage superImage) (.sampledImage image) ↔
      isSubtype resolve superImage image = true :=
  (and_iff_right rfl).trans accepts_one

theorem Accepts.of_reflexive {t : TypeNode S}
    (reflexive : ∀ position ∈ t.inside, isSubtype resolve position.2 position.2 = true) :
    Accepts resolve t t := by
  refine ⟨.refl t.head, List.forall₂_same.mpr fun position held => ?_⟩
  have same := reflexive position held
  cases position with
  | mk variance inner =>
      cases variance with
      | covariant => exact covariant_iff.mpr same
      | contravariant => exact contravariant_iff.mpr same

theorem isSubtype_refl (t : TypeNode S) : isSubtype resolve t t = true := by
  rw [isSubtype.eq_def, decide_eq_true rfl, Bool.true_or]

theorem Accepts.refl (t : TypeNode S) : Accepts resolve t t :=
  .of_reflexive fun position _ => isSubtype_refl position.2

omit [DecidableEq S] in
/-- A type without types inside is its head. -/
theorem eq_of_head_plain {t type : TypeNode S} (same : Head.plain t = type.head) : type = t := by
  cases type with
  | maskType | noRet | int | float | bool | sampler | typeDeclRef => exact (Head.plain.inj same).symm
  | _ => exact nomatch same

/-- The comparison is that of the heads and of the types inside. -/
theorem isSubtype_iff {supertype type : TypeNode S} :
    isSubtype resolve supertype type = true ↔ Accepts resolve supertype type := by
  rw [isSubtype.eq_def, Bool.or_eq_true, decide_eq_true_eq]
  constructor
  · intro accepted
    cases accepted with
    | inl equal =>
        rw [equal]
        exact .refl supertype
    | inr deep =>
        split at deep
        case h_14 => cases deep
        case h_7 => simpa [imp_iff_or_not] using deep
        case h_8 | h_11 =>
          simpa [Accepts, TypeNode.head, Head.Accepts, TypeNode.inside] using deep
        all_goals simpa [unsized_iff, or_right_comm, imp_iff_not_or] using deep
  · intro accepted
    cases supertype with
    | qualified superUniform super =>
        cases type with
        | qualified isUniform sub => exact .inr (by simpa [imp_iff_not_or] using accepted)
        | _ => cases accepted.1
    | record superMembers superNames superSpecial =>
        cases type with
        | record members names special => exact .inr (by simpa using accepted)
        | _ => cases accepted.1
    | joinPoint superYields =>
        cases type with
        | joinPoint yields => exact .inr (by simpa using accepted)
        | _ => cases accepted.1
    | fn superParams superReturns =>
        cases type with
        | fn params returns => exact .inr (by simpa using accepted)
        | _ => cases accepted.1
    | bb superParams =>
        cases type with
        | bb params => exact .inr (by simpa using accepted)
        | _ => cases accepted.1
    | lam superParams =>
        cases type with
        | lam params => exact .inr (by simpa using accepted)
        | _ => cases accepted.1
    | ptr superSpace superPointed superReference =>
        cases type with
        | ptr space pointed isReference => exact .inr (by simpa [imp_iff_or_not] using accepted)
        | _ => cases accepted.1
    | arr superElement superSize =>
        cases type with
        | arr element size => exact .inr (by simpa [unsized_iff, or_right_comm] using accepted)
        | _ => cases accepted.1
    | pack superElement superWidth =>
        cases type with
        | pack element width => exact .inr (by simpa using accepted)
        | _ => cases accepted.1
    | image superSampled superShape =>
        cases type with
        | image sampled shape => exact .inr (by simpa using accepted)
        | _ => cases accepted.1
    | sampledImage superImage =>
        cases type with
        | sampledImage image => exact .inr (by simpa using accepted)
        | _ => cases accepted.1
    | _ => exact .inl (eq_of_head_plain accepted.1)

/-- One position accepts through another if the types of the one between them do. -/
theorem Positioned.trans {first second third : Variance × TypeNode S}
    (transitive : ∀ a c : TypeNode S, isSubtype resolve a second.2 = true →
      isSubtype resolve second.2 c = true → isSubtype resolve a c = true)
    (accepted : Positioned resolve first second) (next : Positioned resolve second third) :
    Positioned resolve first third := by
  cases first with
  | mk variance first =>
      cases second with
      | mk middle second =>
          cases third with
          | mk last third =>
              cases accepted.1
              cases next.1
              cases variance with
              | covariant => exact ⟨rfl, transitive _ _ accepted.2 next.2⟩
              | contravariant => exact ⟨rfl, transitive _ _ next.2 accepted.2⟩

/-- By induction on the type in the middle, which the types inside it take over. -/
theorem isSubtype_trans (second first third : TypeNode S)
    (accepted : isSubtype resolve first second = true)
    (next : isSubtype resolve second third = true) : isSubtype resolve first third = true := by
  rw [isSubtype_iff] at *
  refine ⟨accepted.1.trans next.1, forall₂_trans ?_ accepted.2 next.2⟩
  intro position held a c
  have smaller := TypeNode.sizeOf_inside held
  exact Positioned.trans (isSubtype_trans position.2)
termination_by sizeOf second

/-- Two types each of which accepts the other. -/
def Interchangeable (resolve : S → Option IntLiteral) (a b : TypeNode S) : Prop :=
  isSubtype resolve a b = true ∧ isSubtype resolve b a = true

/-- Mutual subtypes may stand for each other anywhere in a type. -/
theorem fill_interchangeable {a b : TypeNode S} (mutually : Interchangeable resolve a b)
    (hole : Nat) (context : TypeNode S) :
    Interchangeable resolve (fillType hole a context) (fillType hole b context) := by
  by_cases isHole : context = .typeDeclRef hole
  · rw [isHole, fillType, if_pos rfl, fillType, if_pos rfl]
    exact mutually
  · have first := fillType_inside a isHole
    have second := fillType_inside b isHole
    have inner : ∀ position ∈ context.inside,
        Interchangeable resolve (fillType hole a position.2) (fillType hole b position.2) :=
      fun position held =>
        have smaller := TypeNode.sizeOf_inside held
        fill_interchangeable mutually hole position.2
    constructor
    · rw [isSubtype_iff, Accepts, first.1, second.1, first.2, second.2,
        List.forall₂_map_left_iff, List.forall₂_map_right_iff, List.forall₂_same]
      refine ⟨.refl _, fun position held => ?_⟩
      cases position with
      | mk variance t =>
          cases variance with
          | covariant => exact covariant_iff.mpr (inner _ held).1
          | contravariant => exact contravariant_iff.mpr (inner _ held).2
    · rw [isSubtype_iff, Accepts, first.1, second.1, first.2, second.2,
        List.forall₂_map_left_iff, List.forall₂_map_right_iff, List.forall₂_same]
      refine ⟨.refl _, fun position held => ?_⟩
      cases position with
      | mk variance t =>
          cases variance with
          | covariant => exact covariant_iff.mpr (inner _ held).2
          | contravariant => exact contravariant_iff.mpr (inner _ held).1
termination_by sizeOf context

/-- A place of the types at a position is a place of the types around it. -/
theorem Positioned.place {super sub : Variance × TypeNode S} {path : List Nat}
    (accepted : Positioned resolve super sub)
    (inner : ∀ supertype type : TypeNode S, isSubtype resolve supertype type = true →
      Option.Rel (Positioned resolve) (supertype.place path) (type.place path)) :
    Option.Rel (Positioned resolve)
      ((super.2.place path).map fun found => (super.1.compose found.1, found.2))
      ((sub.2.place path).map fun found => (sub.1.compose found.1, found.2)) := by
  cases super with
  | mk outer super =>
      cases sub with
      | mk other sub =>
          cases accepted.1
          cases outer with
          | covariant =>
              have related := inner super sub accepted.2
              generalize super.place path = superPlace at related ⊢
              generalize sub.place path = place at related ⊢
              cases related with
              | none => exact .none
              | some found => exact .some found
          | contravariant =>
              have related := inner sub super accepted.2
              generalize super.place path = superPlace at related ⊢
              generalize sub.place path = place at related ⊢
              cases related with
              | none => exact .none
              | @some below above found =>
                  refine .some ?_
                  cases below with
                  | mk variance below =>
                      cases above with
                      | mk other above =>
                          cases found.1
                          cases variance with
                          | covariant => exact ⟨rfl, found.2⟩
                          | contravariant => exact ⟨rfl, found.2⟩

/-- What is at one place of both types accepts each other in the order of the place. -/
theorem isSubtype_place (path : List Nat) {supertype type : TypeNode S}
    (accepted : isSubtype resolve supertype type = true) :
    Option.Rel (Positioned resolve) (supertype.place path) (type.place path) := by
  induction path generalizing supertype type with
  | nil => exact .some (covariant_iff.mpr accepted)
  | cons index path ih =>
      have here := forall₂_getElem? (isSubtype_iff.mp accepted).2 index
      rw [TypeNode.place, TypeNode.place]
      generalize supertype.inside[index]? = superPosition at here ⊢
      generalize type.inside[index]? = position at here ⊢
      cases here with
      | none => exact .none
      | @some superPosition position here =>
          exact here.place fun _ _ accepted => ih accepted

/-! ## The types behind pointers -/

mutual
/-- The types behind pointers among all types. -/
def ofIrType : IrType → TypeNode IntLiteral
  | .maskType => .maskType
  | .noRet => .noRet
  | .int width isSigned => .int width isSigned
  | .float width => .float width
  | .bool => .bool
  | .qualified isUniform type => .qualified isUniform (ofIrType type)
  | .ptr pointedType space isReference => .ptr space (ofIrType pointedType) isReference
  | .arr elementType size => .arr (ofIrType elementType) size
  | .pack elementType width => .pack (ofIrType elementType) width
  | .record members special => .record (ofIrTypes members) [] special
  | .typeDeclRef decl _ => .typeDeclRef decl
  | .fn paramTypes returnTypes => .fn (ofIrTypes paramTypes) (ofIrTypes returnTypes)
def ofIrTypes : IrTypes → TypeNodes IntLiteral
  | .nil => .nil
  | .cons head tail => .cons (ofIrType head) (ofIrTypes tail)
end

mutual
/-- Both comparisons are the same where both are defined. -/
theorem isSubtype_ofIrType (supertype type : IrType) :
    isSubtype some (ofIrType supertype) (ofIrType type) = supertype.isSubtype type := by
  by_cases same : type = supertype
  · rw [same, isSubtype_refl, IrType.isSubtype.eq_def, decide_eq_true rfl, Bool.true_or]
  · rw [Bool.eq_iff_iff, isSubtype_iff, IrType.isSubtype.eq_def, decide_eq_false same,
      Bool.false_or]
    cases supertype with
    | qualified superUniform super =>
        cases type with
        | qualified isUniform sub =>
            have inner := isSubtype_ofIrType super sub
            simp [ofIrType, inner, imp_iff_not_or]
        | _ => simp [ofIrType, Accepts, TypeNode.head, Head.Accepts]
    | record superMembers superSpecial =>
        cases type with
        | record members special =>
            have inner := areSubtypes_ofIrTypes superMembers members
            simp [ofIrType, inner]
        | _ => simp [ofIrType, Accepts, TypeNode.head, Head.Accepts]
    | fn superParams superReturns =>
        cases type with
        | fn params returns =>
            have returned := areSubtypes_ofIrTypes superReturns returns
            have passed := areSubtypes_ofIrTypes params superParams
            simp [ofIrType, returned, passed]
        | _ => simp [ofIrType, Accepts, TypeNode.head, Head.Accepts]
    | ptr superPointed superSpace superReference =>
        cases type with
        | ptr pointed space isReference =>
            have inner := isSubtype_ofIrType superPointed pointed
            simp [ofIrType, inner, imp_iff_or_not, and_assoc]
        | _ => simp [ofIrType, Accepts, TypeNode.head, Head.Accepts]
    | arr superElement superSize =>
        cases type with
        | arr element size =>
            have inner := isSubtype_ofIrType superElement element
            cases superSize with
            | none => simp [ofIrType, inner, unsized_iff]
            | some size => simp [ofIrType, inner, unsized_iff]
        | _ => simp [ofIrType, Accepts, TypeNode.head, Head.Accepts]
    | pack superElement superWidth =>
        cases type with
        | pack element width =>
            have inner := isSubtype_ofIrType superElement element
            simp [ofIrType, inner]
        | _ => simp [ofIrType, Accepts, TypeNode.head, Head.Accepts]
    | typeDeclRef superDecl body =>
        cases type with
        | typeDeclRef decl body =>
            simp [ofIrType, Accepts, TypeNode.head, TypeNode.inside, Head.Accepts]
        | _ => simp [ofIrType, Accepts, TypeNode.head, Head.Accepts]
    | int superWidth superSigned =>
        cases type with
        | int width isSigned =>
            simpa [ofIrType, Accepts, TypeNode.head, TypeNode.inside, Head.Accepts, eq_comm] using same
        | _ => simp [ofIrType, Accepts, TypeNode.head, Head.Accepts]
    | float superWidth =>
        cases type with
        | float width =>
            simpa [ofIrType, Accepts, TypeNode.head, TypeNode.inside, Head.Accepts, eq_comm] using same
        | _ => simp [ofIrType, Accepts, TypeNode.head, Head.Accepts]
    | _ =>
        cases type <;>
          simp_all [ofIrType, Accepts, TypeNode.head, TypeNode.inside, Head.Accepts]
termination_by sizeOf supertype + sizeOf type

theorem areSubtypes_ofIrTypes (supertypes types : IrTypes) :
    areSubtypes some (ofIrTypes supertypes) (ofIrTypes types) =
      IrType.areSubtypes supertypes types := by
  cases supertypes with
  | nil =>
      cases types with
      | nil => simp [ofIrTypes, areSubtypes, IrType.areSubtypes]
      | cons type types => simp [ofIrTypes, areSubtypes, IrType.areSubtypes]
  | cons supertype supertypes =>
      cases types with
      | nil => simp [ofIrTypes, areSubtypes, IrType.areSubtypes]
      | cons type types =>
          have head := isSubtype_ofIrType supertype type
          have tail := areSubtypes_ofIrTypes supertypes types
          simp [ofIrTypes, areSubtypes, IrType.areSubtypes, head, tail]
termination_by sizeOf supertypes + sizeOf types
end

/-! ## The order -/

/-- What the order of the types promises. -/
structure SubtypeOrder (resolve : S → Option IntLiteral) : Prop where
  refl : ∀ t : TypeNode S, isSubtype resolve t t = true
  trans : ∀ first second third : TypeNode S, isSubtype resolve first second = true →
    isSubtype resolve second third = true → isSubtype resolve first third = true
  fn : ∀ superParams superReturns params returns : TypeNodes S,
    isSubtype resolve (.fn superParams superReturns) (.fn params returns) = true ↔
      List.Forall₂ (fun param superParam => isSubtype resolve param superParam = true)
          params.toList superParams.toList ∧
        List.Forall₂ (fun superReturn result => isSubtype resolve superReturn result = true)
          superReturns.toList returns.toList
  bb : ∀ superParams params : TypeNodes S,
    isSubtype resolve (.bb superParams) (.bb params) = true ↔
      List.Forall₂ (fun param superParam => isSubtype resolve param superParam = true)
        params.toList superParams.toList
  lam : ∀ superParams params : TypeNodes S,
    isSubtype resolve (.lam superParams) (.lam params) = true ↔
      List.Forall₂ (fun param superParam => isSubtype resolve param superParam = true)
        params.toList superParams.toList
  joinPoint : ∀ superYields yields : TypeNodes S,
    isSubtype resolve (.joinPoint superYields) (.joinPoint yields) = true ↔
      List.Forall₂ (fun result superYield => isSubtype resolve result superYield = true)
        yields.toList superYields.toList
  uniform_below_varying : ∀ t : TypeNode S,
    isSubtype resolve (.qualified false t) (.qualified true t) = true
  never_reverse : ∀ t t' : TypeNode S,
    isSubtype resolve (.qualified true t) (.qualified false t') = false
  interchange : ∀ a b : TypeNode S, Interchangeable resolve a b →
    ∀ (hole : Nat) (context : TypeNode S),
      Interchangeable resolve (fillType hole a context) (fillType hole b context)
  same_above : ∀ a b t : TypeNode S, Interchangeable resolve a b →
    isSubtype resolve t a = isSubtype resolve t b ∧
      isSubtype resolve a t = isSubtype resolve b t
  /-- At a place that values are taken from, what is expected to be uniform is given uniform. -/
  taken : ∀ given expected : TypeNode S,
    Relation.ReflTransGen (fun given expected => isSubtype resolve expected given = true)
      given expected → ∀ (path : List Nat) (t : TypeNode S),
    expected.place path = some (.covariant, .qualified true t) →
      ∃ t', given.place path = some (.covariant, .qualified true t')
  /-- At a place that values are handed to, what wants a uniform value is handed only those. -/
  handed : ∀ given expected : TypeNode S,
    Relation.ReflTransGen (fun given expected => isSubtype resolve expected given = true)
      given expected → ∀ (path : List Nat) (t : TypeNode S),
    given.place path = some (.contravariant, .qualified true t) →
      ∃ t', expected.place path = some (.contravariant, .qualified true t')

/-- A chain of passings is one passing. -/
theorem isSubtype_of_chain {given expected : TypeNode S}
    (chain : Relation.ReflTransGen (fun given expected => isSubtype resolve expected given = true)
      given expected) : isSubtype resolve expected given = true := by
  induction chain with
  | refl => exact isSubtype_refl given
  | tail _ last ih => exact isSubtype_trans _ _ _ last ih

/-- Only a uniform type is accepted where a uniform one is expected. -/
theorem accepts_uniform {t type : TypeNode S}
    (accepted : isSubtype resolve (.qualified true t) type = true) :
    ∃ t', type = .qualified true t' := by
  have same := (isSubtype_iff.mp accepted).1
  cases type with
  | qualified isUniform t' =>
      cases (show isUniform = true from same rfl)
      exact ⟨t', rfl⟩
  | _ => exact nomatch same

/-- Types are ordered by `shd_is_subtype`, with the variance of their constructors, and no chain of
passings brings a varying value to where a uniform one is expected. -/
theorem isSubtype_order (resolve : S → Option IntLiteral) : SubtypeOrder resolve where
  refl := isSubtype_refl
  trans first second third := isSubtype_trans second first third
  fn superParams superReturns params returns := by
    rw [isSubtype_iff, accepts_fn, areSubtypes_iff, areSubtypes_iff, and_comm]
  bb superParams params := by rw [isSubtype_iff, accepts_bb, areSubtypes_iff]
  lam superParams params := by rw [isSubtype_iff, accepts_lam, areSubtypes_iff]
  joinPoint superYields yields := by rw [isSubtype_iff, accepts_joinPoint, areSubtypes_iff]
  uniform_below_varying t := by
    rw [isSubtype_iff, accepts_qualified]
    exact ⟨fun _ => rfl, isSubtype_refl t⟩
  never_reverse t t' := by
    rw [Bool.eq_false_iff, ne_eq, isSubtype_iff, accepts_qualified]
    exact fun accepted => nomatch accepted.1 rfl
  interchange a b mutually hole context := fill_interchangeable mutually hole context
  same_above a b t mutually := by
    constructor
    · rw [Bool.eq_iff_iff]
      exact ⟨fun accepted => isSubtype_trans _ _ _ accepted mutually.1,
        fun accepted => isSubtype_trans _ _ _ accepted mutually.2⟩
    · rw [Bool.eq_iff_iff]
      exact ⟨fun accepted => isSubtype_trans _ _ _ mutually.2 accepted,
        fun accepted => isSubtype_trans _ _ _ mutually.1 accepted⟩
  taken given expected chain path t placed := by
    have related := isSubtype_place path (isSubtype_of_chain chain)
    rw [placed] at related
    generalize given.place path = place at related ⊢
    cases related with
    | @some _ position accepted =>
        cases position with
        | mk variance type =>
            cases accepted.1
            cases accepts_uniform accepted.2 with
            | intro t' same => exact ⟨t', same ▸ rfl⟩
  handed given expected chain path t placed := by
    have related := isSubtype_place path (isSubtype_of_chain chain)
    rw [placed] at related
    generalize expected.place path = place at related ⊢
    cases related with
    | @some position _ accepted =>
        cases position with
        | mk variance type =>
            cases accepted.1
            cases accepts_uniform accepted.2 with
            | intro t' same => exact ⟨t', same ▸ rfl⟩

end Shady.Subtypes
