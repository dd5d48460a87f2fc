import Shady.FoldPtr

/-!
# What pointer operands denote

A pointer denotes a place, an address in an address space. A pointer of a specific address
space holds the address; how a generic one holds both is left open here, and so are the values
at which a chain of casts starts. A fold is sound when the simplified node reaches the same
place, whatever these are.
-/

set_option autoImplicit false

namespace Shady

/-! ## What pointers denote -/

/-- How generic pointers hold places. Not every place needs to have a generic pointer. -/
structure GenericFormat (Bits : Type) where
  encode : AddressSpace → Bits → Option Bits
  decode : Bits → Option (AddressSpace × Bits)
  decode_encode : ∀ space address generic, encode space address = some generic →
    decode generic = some (space, address)

namespace GenericFormat
variable {Bits : Type} (format : GenericFormat Bits)

/-- The place that a pointer of an address space denotes. -/
def locate (space : AddressSpace) (bits : Bits) : Option (AddressSpace × Bits) :=
  if space = .generic then format.decode bits else some (space, bits)

/-- What a pointer of an address space holds for a place. -/
def hold (space : AddressSpace) (place : AddressSpace × Bits) : Option Bits :=
  if space = .generic then format.encode place.1 place.2 else some place.2

end GenericFormat

/-! ## The format of the compiler

`src/shady/passes/lower_generic_ptrs.c` puts a tag into the three upper bits of a generic pointer
of 64 bits, and extends the sign of the rest when the pointer is recovered. -/

/-- `generic_ptr_tags`, where unused tags are `AsGeneric`. -/
def genericPtrTags : List AddressSpace :=
  [.global, .shared, .subgroup, .priv, .generic, .generic, .generic, .global]

/-- `get_tag_for_addr_space`, where no tag is an error. -/
def getTagForAddrSpace (space : AddressSpace) : Option Nat := genericPtrTags.findIdx? fun tagged => decide (tagged = space)

/-- `recover_full_pointer` -/
def recoverFullPointer (generic : BitVec 64) : BitVec 64 :=
  let firstNonTagBit := (generic >>> 60) &&& 1
  let signExtensionPatch : BitVec 64 := if firstNonTagBit = 1 then 255 <<< 61 else 0
  (generic &&& (BitVec.allOnes 64 >>> 3)) ||| signExtensionPatch

/-- The accesses switch over the tag, and are unreachable for an unused one. -/
def decodeTagged (generic : BitVec 64) : Option (AddressSpace × BitVec 64) :=
  match genericPtrTags[(generic >>> 61).toNat]? with
  | none => none
  | some space => if space = .generic then none else some (space, recoverFullPointer generic)

/-- The conversion sets the tag. It is defined on the addresses that are recovered. -/
def taggedFormat : GenericFormat (BitVec 64) where
  encode := fun space address =>
    (getTagForAddrSpace space).bind fun tag =>
      let generic := (address &&& (BitVec.allOnes 64 >>> 3)) ||| (BitVec.ofNat 64 tag <<< 61)
      if decodeTagged generic = some (space, address) then some generic else none
  decode := decodeTagged
  decode_encode := by
    intro space address generic encoded
    obtain ⟨tag, -, encoded⟩ := Option.bind_eq_some_iff.mp encoded
    dsimp only at encoded
    split_ifs at encoded with recovered
    cases encoded
    exact recovered

example : taggedFormat.encode .shared 16 = some 0x2000000000000010 := by decide

/-- Conversions to and from generic pointers keep the place; the second kind is only defined on
    places in the address space. Between two others they keep the address, like any cast. -/
def convertPlace {Bits : Type} (src dst : AddressSpace) (place : AddressSpace × Bits) : Option (AddressSpace × Bits) :=
  if dst = .generic then some place
  else if src = .generic then if place.1 = dst then some place else none
  else some (dst, place.2)

/-- What the nodes stand for that the folder does not look into. -/
structure PtrMeaning (Bits : Type) extends GenericFormat Bits where
  value : PtrNode → Bits
  element : Option IrType → Selector → Bits → Bits
  offset : Option IrType → Selector → Bits → Bits

section Meaning
variable (config : TypesConfig)

def ptrSpace (node : PtrNode) : Option AddressSpace :=
  match checkType config node with
  | .ok (.qualified _ (.ptr _ space _)) => some space
  | _ => none

def pointedType (node : PtrNode) : Option IrType :=
  match checkType config node with
  | .ok (.qualified _ (.ptr pointed _ _)) => some pointed
  | _ => none

namespace PtrMeaning
variable {Bits : Type} (meaning : PtrMeaning Bits)

/-- The bits of a value. -/
def bits : PtrNode → Option Bits
  | .reinterpretOp _ operand => bits operand
  | .convertOp (.ptr _ dst _) operand => do
      let src ← ptrSpace config operand
      let place ← meaning.locate src (← bits operand)
      meaning.hold dst (← convertPlace src dst place)
  | .ptrCompositeElement ptr index =>
      if index.isZero then bits ptr else some (meaning.value (.ptrCompositeElement ptr index))
  | node => some (meaning.value node)

/-- The place that a pointer denotes. -/
def place (node : PtrNode) : Option (AddressSpace × Bits) := do
  let space ← ptrSpace config node
  meaning.locate space (← meaning.bits config node)

/-- The place that a node accesses, or whose address it computes. -/
def reached : PtrNode → Option (AddressSpace × Bits)
  | .load ptr => meaning.place config ptr
  | .store ptr _ => meaning.place config ptr
  | .call callee _ => meaning.place config callee
  | .tailCall callee _ => meaning.place config callee
  | .ptrCompositeElement ptr index =>
      (meaning.place config ptr).map fun place =>
        (place.1, if index.isZero then place.2 else meaning.element (pointedType config ptr) index place.2)
  | .ptrArrayElementOffset ptr offset =>
      (meaning.place config ptr).map fun place =>
        (place.1, if offset.isZero then place.2 else meaning.offset (pointedType config ptr) offset place.2)
  | .convertOp (.ptr _ dst _) operand => do
      let src ← ptrSpace config operand
      convertPlace src dst (← reached operand)
  | node => meaning.place config node

end PtrMeaning

/-- The type that a node accesses memory with, or that the address it computes points to. -/
def accessedType : PtrNode → Option IrType
  | .load ptr => pointedType config ptr
  | .store ptr _ => pointedType config ptr
  | .call callee _ => pointedType config callee
  | .tailCall callee _ => pointedType config callee
  | node => pointedType config node

/-- The fold of a node goes through, and what it makes of the node reaches the same place with
    the same type. -/
def SimplifiesSoundly (node : PtrNode) : Prop :=
  ∃ fuel result type type', foldSimplifyPtrOperand config (createPtrNode config fuel) node = .ok result ∧
    checkType config node = .ok type ∧ checkType config result = .ok type' ∧ type.isSubtype type' = true ∧
    accessedType config result = accessedType config node ∧
    ∀ (Bits : Type) (meaning : PtrMeaning Bits) (place : AddressSpace × Bits),
      meaning.reached config node = some place → meaning.reached config result = some place

end Meaning

/-! ## Chains of casts -/

/-- Where the reinterpretations and the first elements in front of a pointer end, and how many
    there are. -/
def plainSource : PtrNode → PtrNode × Nat
  | .reinterpretOp _ operand => ((plainSource operand).1, (plainSource operand).2 + 1)
  | .ptrCompositeElement ptr index =>
      if index.isZero then ((plainSource ptr).1, (plainSource ptr).2 + 1) else (.ptrCompositeElement ptr index, 0)
  | node => (node, 0)

/-- A chain of reinterpretations, conversions to pointers and first elements over another node. -/
def PtrNode.isCastChain : PtrNode → Bool
  | .source _ _ _ => true
  | .reinterpretOp _ operand => operand.isCastChain
  | .convertOp (.ptr _ _ _) operand => operand.isCastChain
  | .ptrCompositeElement ptr index => index.isZero && ptr.isCastChain
  | _ => false

/-- A conversion to a pointer, with the address space of the pointer. -/
def ptrConversion : PtrNode → Option (AddressSpace × PtrNode)
  | .convertOp (.ptr _ space _) operand => some (space, operand)
  | _ => none

/-- A chain of casts with one conversion to a pointer at most. -/
structure PtrChain where
  source : PtrNode
  distance : Nat
  /-- The address spaces that are converted to, and from. -/
  conversion : Option (AddressSpace × AddressSpace)

def ptrChain (config : TypesConfig) (ptr : PtrNode) : Option PtrChain :=
  match ptrConversion (plainSource ptr).1 with
  | none => some ⟨(plainSource ptr).1, (plainSource ptr).2, none⟩
  | some (dst, operand) =>
      match ptrConversion (plainSource operand).1 with
      | some _ => none
      | none => (ptrSpace config operand).map fun src =>
          ⟨(plainSource operand).1, (plainSource ptr).2 + (plainSource operand).2, some (dst, src)⟩

/-- The spaces fit together: the place that an accessed pointer denotes is the one that the new
    pointer denotes. Where an address is computed it is converted back. -/
def SpacesAgree (conversion : Option (AddressSpace × AddressSpace)) (computes : Bool) (accessed new : AddressSpace) : Prop :=
  match conversion with
  | some (.generic, src) => accessed = .generic ∧ new = src
  | some (dst, .generic) => new = .generic ∧ accessed = dst
  | _ => new = accessed ∨ (computes = true ∧ new ≠ .generic ∧ accessed ≠ .generic)

namespace PtrChain

/-- The folder leaves the chain alone. -/
def Untouched (chain : PtrChain) : Prop := chain.conversion = none ∧ chain.distance ≤ 1

/-- The address space of the cast that is rebuilt, in front of a pointer of an address space. -/
def srcAs (chain : PtrChain) (accessed : AddressSpace) : AddressSpace :=
  match chain.conversion with
  | some (_, src) => src
  | none => accessed

/-- The address space of the new pointer, from the type of the source. -/
def newSpace (chain : PtrChain) (accessed : AddressSpace) (pointed : IrType) : IrType → AddressSpace
  | .ptr sourcePointed space _ => if sourcePointed = pointed then space else chain.srcAs accessed
  | _ => chain.srcAs accessed

/-- A cast that is rebuilt from a pointer does not cross between generic and specific pointers. -/
def CastLegal (chain : PtrChain) (accessed : AddressSpace) (pointed : IrType) : IrType → Prop
  | .ptr sourcePointed space _ => sourcePointed = pointed ∨ (space = .generic ↔ chain.srcAs accessed = .generic)
  | _ => True

end PtrChain

namespace PtrNode

/-- The node computes an address and does not access memory. -/
def computesAddress : PtrNode → Bool
  | .ptrCompositeElement _ _ => true
  | .ptrArrayElementOffset _ _ => true
  | _ => false

/-- A load does not become varying, and a callee stays a generic pointer. -/
def Admits (config : TypesConfig) (isUniform : Bool) (accessed new : AddressSpace) : PtrNode → Prop
  | .load _ => isUniform = true → config.isAddrSpaceUniform accessed = true → config.isAddrSpaceUniform new = true
  | .call _ _ => new = .generic
  | .tailCall _ _ => new = .generic
  | _ => True

/-- When the fold of a node is sound. -/
def FoldsWell (config : TypesConfig) (node : PtrNode) : Prop :=
  ∀ ptr withPtr isUniform pointed accessed, node.ptrOperand = some (ptr, withPtr) →
    checkType config ptr = .ok (.qualified isUniform (.ptr pointed accessed false)) →
    ∃ chain, ptrChain config ptr = some chain ∧ (chain.Untouched ∨
      ∃ sourceUniform sourceType, checkType config chain.source = .ok (.qualified sourceUniform sourceType) ∧
        chain.CastLegal accessed pointed sourceType ∧
        SpacesAgree chain.conversion node.computesAddress accessed (chain.newSpace accessed pointed sourceType) ∧
        node.Admits config isUniform accessed (chain.newSpace accessed pointed sourceType))

end PtrNode

/-! ## Places along a chain -/

section Places
variable {Bits : Type} (format : GenericFormat Bits)

/-- The place that the accessed pointer of a chain denotes, from the bits at its source. -/
def chainPlace (conversion : Option (AddressSpace × AddressSpace)) (accessed : AddressSpace) (bits : Bits) :
    Option (AddressSpace × Bits) :=
  match conversion with
  | none => format.locate accessed bits
  | some (dst, src) => do
      let place ← format.locate src bits
      let held ← format.hold dst (← convertPlace src dst place)
      format.locate accessed held

variable {format}

theorem locate_specific {space : AddressSpace} (specific : space ≠ .generic) (bits : Bits) :
    format.locate space bits = some (space, bits) := if_neg specific

theorem locate_generic (bits : Bits) : format.locate .generic bits = format.decode bits := if_pos rfl

theorem convertPlace_self {space : AddressSpace} {bits : Bits} {place : AddressSpace × Bits}
    (located : format.locate space bits = some place) (address : Bits) :
    convertPlace space space (place.1, address) = some (place.1, address) := by
  by_cases generic : space = .generic
  · rw [convertPlace, if_pos generic]
  · rw [locate_specific generic] at located
    cases located
    rw [convertPlace, if_neg generic, if_neg generic]

theorem chainPlace_specific {dst src accessed : AddressSpace} (dstSpecific : dst ≠ .generic)
    (srcSpecific : src ≠ .generic) (bits : Bits) :
    chainPlace format (some (dst, src)) accessed bits = format.locate accessed bits := by
  simp [chainPlace, GenericFormat.locate, GenericFormat.hold, convertPlace, dstSpecific, srcSpecific]

theorem chainPlace_toGeneric {src accessed : AddressSpace} (srcSpecific : src ≠ .generic) (bits : Bits) :
    chainPlace format (some (.generic, src)) accessed bits = (format.encode src bits).bind (format.locate accessed) := by
  simp only [chainPlace, locate_specific srcSpecific, GenericFormat.hold, convertPlace, if_pos, Option.bind_eq_bind,
    Option.bind_some]

theorem chainPlace_fromGeneric {dst accessed : AddressSpace} (dstSpecific : dst ≠ .generic) (bits : Bits) :
    chainPlace format (some (dst, .generic)) accessed bits =
      (format.decode bits).bind fun place => if place.1 = dst then format.locate accessed place.2 else none := by
  cases located : format.decode bits with
  | none => simp [chainPlace, GenericFormat.locate, located]
  | some place =>
      by_cases within : place.1 = dst <;>
        simp [chainPlace, GenericFormat.locate, GenericFormat.hold, convertPlace, dstSpecific, located, within]

/-- The three ways in which the spaces of a chain can agree. -/
theorem spacesAgree_cases {conversion : Option (AddressSpace × AddressSpace)} (computes : Bool)
    (accessed new : AddressSpace) (proper : conversion ≠ some (.generic, .generic)) :
    (SpacesAgree conversion computes accessed new ↔ new = accessed ∨ (computes = true ∧ new ≠ .generic ∧ accessed ≠ .generic)) ∧
      (∀ (Bits : Type) (format : GenericFormat Bits) bits,
        chainPlace format conversion accessed bits = format.locate accessed bits) ∨
    (∃ src, src ≠ .generic ∧ conversion = some (.generic, src) ∧
      (SpacesAgree conversion computes accessed new ↔ accessed = .generic ∧ new = src)) ∨
    (∃ dst, dst ≠ .generic ∧ conversion = some (dst, .generic) ∧
      (SpacesAgree conversion computes accessed new ↔ new = .generic ∧ accessed = dst)) := by
  cases conversion with
  | none => exact .inl ⟨Iff.rfl, fun _ _ _ => rfl⟩
  | some spaces =>
      obtain ⟨dst, src⟩ := spaces
      by_cases toGeneric : dst = .generic
      · subst toGeneric
        have srcSpecific : src ≠ .generic := fun same => proper (by rw [same])
        exact .inr (.inl ⟨src, srcSpecific, rfl, Iff.rfl⟩)
      · by_cases fromGeneric : src = .generic
        · subst fromGeneric
          refine .inr (.inr ⟨dst, toGeneric, rfl, ?_⟩)
          cases dst <;> first | exact absurd rfl toGeneric | exact Iff.rfl
        · refine .inl ⟨?_, fun _ _ bits => chainPlace_specific toGeneric fromGeneric bits⟩
          cases dst <;> first
            | exact absurd rfl toGeneric
            | (cases src <;> first | exact absurd rfl fromGeneric | exact Iff.rfl)

/-- Where the spaces agree, the new pointer has the address of the accessed one, and the place
    is the same once an address that is computed has been converted back. -/
theorem place_of_spacesAgree {conversion : Option (AddressSpace × AddressSpace)} {computes : Bool}
    {accessed new : AddressSpace} (proper : conversion ≠ some (.generic, .generic))
    (agree : SpacesAgree conversion computes accessed new) {bits : Bits} {place : AddressSpace × Bits}
    (denotes : chainPlace format conversion accessed bits = some place) :
    ∃ space, format.locate new bits = some (space, place.2) ∧ (computes = false → space = place.1) ∧
      (new = accessed → space = place.1) ∧
      ∀ address : Bits, convertPlace new accessed (space, address) = some (place.1, address) := by
  obtain ⟨agree_iff, same⟩ | ⟨src, srcSpecific, rfl, agree_iff⟩ | ⟨dst, dstSpecific, rfl, agree_iff⟩ :=
    spacesAgree_cases computes accessed new proper
  · rw [same] at denotes
    cases agree_iff.mp agree with
    | inl equal =>
        subst equal
        exact ⟨place.1, denotes, fun _ => rfl, fun _ => rfl, convertPlace_self denotes⟩
    | inr bothSpecific =>
        obtain ⟨computing, newSpecific, accessedSpecific⟩ := bothSpecific
        rw [locate_specific accessedSpecific] at denotes
        cases denotes
        refine ⟨new, locate_specific newSpecific bits, fun accessing => ?_, fun equal => equal, fun address => ?_⟩
        · rw [computing] at accessing
          cases accessing
        · rw [convertPlace, if_neg accessedSpecific, if_neg newSpecific]
  · obtain ⟨rfl, rfl⟩ := agree_iff.mp agree
    rw [chainPlace_toGeneric srcSpecific] at denotes
    obtain ⟨generic, encoded, decoded⟩ := Option.bind_eq_some_iff.mp denotes
    rw [locate_generic, format.decode_encode _ _ _ encoded] at decoded
    cases decoded
    exact ⟨new, locate_specific srcSpecific bits, fun _ => rfl, fun _ => rfl, fun _ => rfl⟩
  · obtain ⟨rfl, rfl⟩ := agree_iff.mp agree
    rw [chainPlace_fromGeneric dstSpecific] at denotes
    obtain ⟨found, decoded, within⟩ := Option.bind_eq_some_iff.mp denotes
    split_ifs at within with inSpace
    rw [locate_specific dstSpecific] at within
    cases within
    refine ⟨accessed, ?_, fun _ => rfl, fun _ => rfl, fun address => ?_⟩
    · rw [locate_generic, decoded, ← inSpace]
    · rw [convertPlace, if_neg dstSpecific, if_pos rfl, if_pos rfl]

end Places

/-- Generic pointers as places written one after the other. -/
def nestedFormat : GenericFormat (List AddressSpace) where
  encode := fun space address => some (space :: address)
  decode := fun generic =>
    match generic with
    | [] => none
    | space :: address => some (space, address)
  decode_encode := by
    intro space address generic encoded
    cases encoded
    rfl

/-- Where the spaces do not agree, there are bits for which the places differ. -/
theorem spacesAgree_of_places {conversion : Option (AddressSpace × AddressSpace)} {computes : Bool}
    {accessed new : AddressSpace} (proper : conversion ≠ some (.generic, .generic))
    (same : ∀ bits place, chainPlace nestedFormat conversion accessed bits = some place →
      (computes = false → nestedFormat.locate new bits = some place) ∧
      (computes = true → (nestedFormat.locate new bits).bind (convertPlace new accessed) = some place)) :
    SpacesAgree conversion computes accessed new := by
  -- in either case a place is found through the new pointer
  have found : ∀ bits place, chainPlace nestedFormat conversion accessed bits = some place →
      ∃ place', nestedFormat.locate new bits = some place' ∧
        (computes = false → place' = place) ∧ (computes = true → convertPlace new accessed place' = some place) := by
    intro bits place denotes
    obtain ⟨accesses, computed⟩ := same bits place denotes
    cases computes with
    | false => exact ⟨place, accesses rfl, fun _ => rfl, nofun⟩
    | true =>
        obtain ⟨place', located, converted⟩ := Option.bind_eq_some_iff.mp (computed rfl)
        exact ⟨place', located, nofun, fun _ => converted⟩
  have address_kept : ∀ {place place' : AddressSpace × List AddressSpace},
      (computes = false → place' = place) → (computes = true → convertPlace new accessed place' = some place) →
      place'.2 = place.2 := by
    intro place place' accesses computed
    cases computes with
    | false => rw [accesses rfl]
    | true =>
        have converted := computed rfl
        unfold convertPlace at converted
        split_ifs at converted
        · cases converted; rfl
        · cases converted; rfl
        · cases converted; rfl
  obtain ⟨agree_iff, plain⟩ | ⟨src, srcSpecific, rfl, agree_iff⟩ | ⟨dst, dstSpecific, rfl, agree_iff⟩ :=
    spacesAgree_cases computes accessed new proper
  · rw [agree_iff]
    by_cases accessedGeneric : accessed = .generic
    · subst accessedGeneric
      obtain ⟨place', located, accesses, computed⟩ := found [.global] (.global, []) (by rw [plain]; rfl)
      left
      by_contra specific
      rw [locate_specific specific] at located
      cases located
      cases address_kept accesses computed
    · obtain ⟨place', located, accesses, computed⟩ :=
        found [] (accessed, []) (by rw [plain, locate_specific accessedGeneric])
      have newSpecific : new ≠ .generic := by
        rintro rfl
        cases located
      rw [locate_specific newSpecific] at located
      cases located
      cases computes with
      | false => exact .inl (congrArg Prod.fst (accesses rfl))
      | true => exact .inr ⟨rfl, newSpecific, accessedGeneric⟩
  · rw [agree_iff]
    have encoded : ∀ bits, chainPlace nestedFormat (some (.generic, src)) accessed bits =
        nestedFormat.locate accessed (src :: bits) := fun bits => chainPlace_toGeneric srcSpecific bits
    have accessedGeneric : accessed = .generic := by
      by_contra specific
      obtain ⟨place', located, accesses, computed⟩ :=
        found [] (accessed, [src]) (by rw [encoded, locate_specific specific])
      have kept := address_kept accesses computed
      by_cases newGeneric : new = .generic
      · subst newGeneric
        cases located
      · rw [locate_specific newGeneric] at located
        cases located
        cases kept
    subst accessedGeneric
    obtain ⟨place', located, accesses, computed⟩ := found [] (src, []) (by rw [encoded]; rfl)
    by_cases newGeneric : new = .generic
    · subst newGeneric
      cases located
    · rw [locate_specific newGeneric] at located
      cases located
      cases computes with
      | false => exact ⟨rfl, congrArg Prod.fst (accesses rfl)⟩
      | true => exact ⟨rfl, congrArg Prod.fst (Option.some.inj (computed rfl))⟩
  · rw [agree_iff]
    have decoded : chainPlace nestedFormat (some (dst, .generic)) accessed [dst, dst] =
        nestedFormat.locate accessed [dst] := by
      rw [chainPlace_fromGeneric dstSpecific]
      exact if_pos rfl
    have newGeneric : new = .generic := by
      by_contra specific
      by_cases accessedGeneric : accessed = .generic
      · subst accessedGeneric
        obtain ⟨place', located, accesses, computed⟩ := found [dst, dst] (dst, []) decoded
        rw [locate_specific specific] at located
        cases located
        cases address_kept accesses computed
      · obtain ⟨place', located, accesses, computed⟩ :=
          found [dst, dst] (accessed, [dst]) (by rw [decoded, locate_specific accessedGeneric])
        rw [locate_specific specific] at located
        cases located
        cases address_kept accesses computed
    subst newGeneric
    by_cases accessedGeneric : accessed = .generic
    · subst accessedGeneric
      obtain ⟨place', located, accesses, computed⟩ := found [dst, dst] (dst, []) decoded
      cases located
      cases address_kept accesses computed
    · obtain ⟨place', located, accesses, computed⟩ :=
        found [dst, dst] (accessed, [dst]) (by rw [decoded, locate_specific accessedGeneric])
      cases located
      cases computes with
      | false => exact ⟨rfl, (congrArg Prod.fst (accesses rfl)).symm⟩
      | true =>
          have converted := computed rfl
          rw [convertPlace, if_neg accessedGeneric, if_pos rfl] at converted
          split_ifs at converted with inSpace
          exact ⟨rfl, inSpace.symm⟩

end Shady
