import Shady.Frontend.SlimParser
import Shady.Library.Fuelled

/-!
# Types are read as they are written

A parser reads a text as a result if it comes to this result and to the end of the text, whatever
follows and however much fuel beyond some amount it has.
-/

set_option autoImplicit false

namespace Shady.Slim.Parser

open Fuelled

variable {α β : Type}

/-- Whatever follows a text, a parser reads it as a result. -/
def Reads (parser : Nat → List Lexeme → Except Failure (Parsed α)) (text : List Lexeme) (result : α) :
    Prop :=
  ∀ rest, Settles (fun fuel => parser fuel (text ++ rest)) (.ok (result, rest))

@[simp] theorem ok_bind {ε : Type} (a : α) (f : α → Except ε β) : (Except.ok a >>= f) = f a := rfl

/-- What comes behind a text that is read. -/
theorem Reads.followed {parser : Nat → List Lexeme → Except Failure (Parsed α)} {text : List Lexeme}
    {a : α} {g : Nat → Parsed α → Except Failure β} {rest : List Lexeme} {result : Except Failure β}
    (reads : Reads parser text a) (further : Settles (fun fuel => g fuel (a, rest)) result) :
    Settles (fun fuel => parser fuel (text ++ rest) >>= g fuel) result :=
  (reads rest).bind further

/-! ## Single tokens -/

@[simp] theorem acceptToken_same (tag : TokenTag) (rest : List Lexeme) :
    acceptToken tag (.word tag :: rest) = (true, rest) := by
  rw [acceptToken, if_pos rfl]

@[simp] theorem expectToken_same (tag : TokenTag) (what : String) (rest : List Lexeme) :
    expectToken tag what (.word tag :: rest) = .ok rest := by
  rw [expectToken, acceptToken_same]

@[simp] theorem expectNode_some (what : String) (node : α) :
    expectNode what (some node) = .ok node := rfl

@[simp] theorem numericTypeOf_token (type : NumericType) :
    numericTypeOf type.token = some type := by
  cases type <;> rfl

@[simp] theorem addressSpaceOf_token (addressSpace : SlimAddressSpace) :
    addressSpaceOf addressSpace.token = some addressSpace := by
  cases addressSpace <;> rfl

/-- A token that ends a list or a part of it. -/
def Lexeme.closing : Lexeme → Bool
  | .word .rparTok => true
  | .word .rsbracketTok => true
  | .word .rbracketTok => true
  | .word .commaTok => true
  | _ => false

/-- A text that begins with something else. -/
def Opens (text : List Lexeme) : Prop := ∃ first tail, text = first :: tail ∧ first.closing = false

theorem Opens.append {text : List Lexeme} (opens : Opens text) (rest : List Lexeme) :
    Opens (text ++ rest) := by
  obtain ⟨first, tail, rfl, notClosing⟩ := opens
  exact ⟨first, tail ++ rest, rfl, notClosing⟩

theorem acceptToken_of_opens (tag : TokenTag) {text : List Lexeme}
    (closing : (Lexeme.word tag).closing = true) (opens : Opens text) :
    acceptToken tag text = (false, text) := by
  obtain ⟨first, tail, rfl, notClosing⟩ := opens
  cases first with
  | word t =>
      have other : t ≠ tag := fun same => by simp [same, closing] at notClosing
      rw [acceptToken, if_neg other]
  | _ => rfl

/-! ## Numbers -/

/-- The sign belongs to the literal. -/
theorem numericalLiteral_text (type : Option NumericType) (literal : Literal) (rest : List Lexeme) :
    numericalLiteral type (acceptToken .minusTok (literal.text ++ rest)).1
      (acceptToken .minusTok (literal.text ++ rest)).2 = .ok (some ⟨type, literal⟩, rest) := by
  cases literal with
  | dec negative digits =>
      cases negative with
      | true => rfl
      | false => rfl
  | hex digits => rfl

@[simp] theorem acceptNumericalLiteral_text (n : Number) (rest : List Lexeme) :
    acceptNumericalLiteral (n.text ++ rest) = .ok (some n, rest) := by
  have noType : ∀ literal : Literal, acceptNumericalType (literal.text ++ rest) =
      (none, literal.text ++ rest) := by
    intro literal
    cases literal with
    | dec negative digits =>
        cases negative with
        | true => rfl
        | false => rfl
    | hex digits => rfl
  cases n with
  | mk type literal =>
      cases type with
      | none =>
          rw [acceptNumericalLiteral]
          simp only [Number.text, Option.toList_none, List.map_nil, List.nil_append, noType]
          exact numericalLiteral_text none literal rest
      | some type =>
          rw [acceptNumericalLiteral]
          simp only [Number.text, Option.toList_some, List.map_cons, List.map_nil,
            List.cons_append, List.nil_append, acceptNumericalType, numericTypeOf_token]
          exact numericalLiteral_text (some type) literal rest

theorem Number.text_opens (n : Number) : Opens n.text := by
  cases n with
  | mk type literal =>
      cases type with
      | none =>
          cases literal with
          | dec negative digits =>
              cases negative with
              | true => exact ⟨_, _, rfl, rfl⟩
              | false => exact ⟨_, _, rfl, rfl⟩
          | hex digits => exact ⟨_, _, rfl, rfl⟩
      | some type => exact ⟨.word type.token, literal.text, rfl, by cases type <;> rfl⟩

/-! ## Leaves -/

variable {frontEnd : Bool}

theorem Leaf.text_opens (leaf : Leaf) : Opens leaf.text := by
  cases leaf with
  | number n => exact n.text_opens
  | _ => exact ⟨_, _, rfl, rfl⟩

/-- A leaf is read with or without a body builder. -/
theorem Leaf.reads (bb : Bool) (leaf : Leaf) :
    Reads (acceptValue frontEnd bb) leaf.text (some (.leaf leaf)) := by
  intro rest
  refine .of_succ ?_
  cases leaf with
  | number n =>
      simp only [acceptValue, Leaf.text, acceptNumericalLiteral_text, ok_bind]
      exact .const _
  | unbound id =>
      have read : ∀ fuel, acceptValue frontEnd bb (fuel + 1) (.identifier id.name :: rest) =
          .ok (some (.leaf (.unbound id)), rest) := by
        intro fuel
        have noNumber : acceptNumericalLiteral (.identifier id.name :: rest) =
            .ok (none, .identifier id.name :: rest) := rfl
        simp only [acceptValue, noNumber, ok_bind]
        split
        · rfl
        · next head taken => cases id.free.symm.trans taken
      exact ⟨0, fun fuel _ => read fuel⟩
  | unit =>
      refine .of_succ ?_
      exact .const _
  | _ => exact .const _

/-! ## Types -/

theorem SlimType.text_opens (t : SlimType) : Opens t.text := by
  cases t with
  | numeric type => exact ⟨.word type.token, [], rfl, by cases type <;> rfl⟩
  | ptr isReference addressSpace pointedType =>
      cases isReference with
      | true => exact ⟨_, _, rfl, rfl⟩
      | false => exact ⟨_, _, rfl, rfl⟩
  | _ => exact ⟨_, _, rfl, rfl⟩

theorem pointerType_reads {isReference : Bool} {addressSpace : SlimAddressSpace}
    {pointedType : SlimType}
    (reads : Reads (acceptUnqualifiedType frontEnd) pointedType.text (some pointedType)) :
    Reads (pointerType frontEnd isReference) (.word addressSpace.token :: pointedType.text)
      (some (.ptr isReference addressSpace pointedType)) := by
  intro rest
  refine .of_succ ?_
  simp only [pointerType, List.cons_append, expectAddressSpace, addressSpaceOf_token, ok_bind]
  exact reads.followed (.const _)

theorem arraySizeOf_reads (size : Option Leaf) (rest : List Lexeme) :
    Settles (fun fuel => arraySizeOf frontEnd fuel (sizeText size ++ .word .rsbracketTok :: rest))
      (.ok (size, .word .rsbracketTok :: rest)) := by
  refine .of_succ ?_
  cases size with
  | none => exact .const _
  | some size =>
      simp only [arraySizeOf, sizeText, List.cons_append, acceptToken_same]
      exact (size.reads false).followed (.const _)

theorem arrayType_reads {elementType : SlimType} {size : Option Leaf}
    (reads : Reads (acceptUnqualifiedType frontEnd) elementType.text (some elementType)) :
    Reads (arrayType frontEnd) (elementType.text ++ (sizeText size ++ [.word .rsbracketTok]))
      (some (.arr elementType size)) := by
  intro rest
  refine .of_succ ?_
  simp only [arrayType, List.append_assoc, List.cons_append, List.nil_append]
  refine reads.followed ((arraySizeOf_reads size rest).bind ?_)
  simp only [expectToken_same, ok_bind]
  exact .const _

theorem packType_reads {elementType : SlimType} {width : Literal}
    (reads : Reads (acceptUnqualifiedType frontEnd) elementType.text (some elementType)) :
    Reads (packType frontEnd) (.word .lsbracketTok ::
        (elementType.text ++ .word .semiTok :: (width.text ++ [.word .rsbracketTok])))
      (some (.pack elementType width)) := by
  intro rest
  have sized : ∀ more, acceptNumericalLiteral (width.text ++ more) =
      .ok (some ⟨none, width⟩, more) := acceptNumericalLiteral_text ⟨none, width⟩
  refine .of_succ ?_
  simp only [packType, List.append_assoc, List.cons_append, List.nil_append, expectToken_same,
    ok_bind]
  refine reads.followed ?_
  simp only [expectNode_some, ok_bind, expectToken_same, sized, packWidth]
  exact .const _

mutual
/-- Every type of the grammar is read. -/
theorem SlimType.reads (t : SlimType) (formed : t.Formed frontEnd) :
    Reads (acceptUnqualifiedType frontEnd) t.text (some t) := by
  intro rest
  refine .of_succ ?_
  cases t with
  | numeric type =>
      simp only [acceptUnqualifiedType, SlimType.text, List.cons_append, acceptNumericalType,
        numericTypeOf_token]
      exact .const _
  | ptr isReference addressSpace pointedType =>
      have reads : Reads (pointerType frontEnd isReference)
          (.word addressSpace.token :: pointedType.text) (some (.ptr isReference addressSpace pointedType)) :=
        pointerType_reads (pointedType.reads formed)
      replace reads := reads rest
      cases isReference with
      | true => exact reads
      | false => exact reads
  | arr elementType size =>
      have reads : Reads (arrayType frontEnd)
          (elementType.text ++ (sizeText size ++ [.word .rsbracketTok])) (some (.arr elementType size)) :=
        arrayType_reads (elementType.reads formed.2)
      replace reads := reads rest
      rw [formed.1] at reads ⊢
      exact reads
  | pack elementType width => exact packType_reads (elementType.reads formed) rest
  | record members =>
      exact (members.reads formed).followed (.const _)
  | _ => exact .const _

theorem SlimMembers.reads (members : SlimMembers) (formed : members.Formed frontEnd) :
    Reads (structMembers frontEnd) members.text members := by
  intro rest
  refine .of_succ ?_
  cases members with
  | nil => exact .const _
  | cons type name more =>
      have opens :=
        type.text_opens.append (.identifier name :: .word .semiTok :: (more.text ++ rest))
      simp only [structMembers, SlimMembers.text, List.append_assoc, List.cons_append,
        acceptToken_of_opens .rbracketTok rfl opens]
      refine (type.reads formed.1).followed ?_
      simp only [expectNode_some, ok_bind, expectIdentifier, expectToken_same]
      exact (more.reads formed.2).followed (.const _)
end

/-- Further type arguments are read, with their commas or without. -/
theorem typeArguments_reads (rest : List (Bool × SlimType)) : ∀ (type : SlimType),
    (∀ t ∈ type :: rest.map Prod.snd, t.Formed frontEnd) →
    Reads (typeArguments frontEnd) (type.text ++ furtherText rest)
      (type :: rest.map Prod.snd) := by
  induction rest with
  | nil =>
      intro type formed following
      have reads := type.reads (formed type List.mem_cons_self)
      refine .of_succ ?_
      simp only [typeArguments, furtherText, List.append_assoc, List.cons_append, List.nil_append]
      exact reads.followed (.const _)
  | cons next rest ih =>
      intro type formed following
      have reads := type.reads (formed type List.mem_cons_self)
      have further := ih next.2 fun t held => formed t (List.mem_cons_of_mem type held)
      refine .of_succ ?_
      cases next with
      | mk comma next =>
          cases comma with
          | true =>
              simp only [typeArguments, furtherText, if_true, List.append_assoc, List.cons_append,
                List.nil_append]
              refine reads.followed ?_
              simp only [expectNode_some, ok_bind, acceptToken_same]
              rw [← List.append_assoc]
              exact further.followed (.const _)
          | false =>
              have opens := next.text_opens.append (furtherText rest ++ following)
              simp only [typeArguments, furtherText, Bool.false_eq_true, if_false,
                List.append_assoc, List.nil_append]
              refine reads.followed ?_
              simp only [expectNode_some, ok_bind, acceptToken_of_opens .commaTok rfl opens,
                acceptToken_of_opens .rsbracketTok rfl opens]
              rw [← List.append_assoc]
              exact further.followed (.const _)

/-- Type arguments are read in front of operands. -/
theorem TypeArguments.reads {types : TypeArguments}
    (formed : ∀ type ∈ types.types, type.Formed frontEnd) (rest : List Lexeme) :
    Settles (fun fuel => acceptTypeArguments frontEnd fuel (types.text ++ .word .lparTok :: rest))
      (.ok (types.types, .word .lparTok :: rest)) := by
  refine .of_succ ?_
  cases types with
  | absent => exact .const _
  | brackets first further =>
      simp only [acceptTypeArguments, TypeArguments.text, List.cons_append, acceptToken_same]
      exact typeArguments_reads further first formed _

theorem QualifiedType.reads (type : QualifiedType) (formed : type.type.Formed frontEnd) :
    Reads (expectQualifiedType frontEnd) type.text type := by
  intro rest
  have reads := type.type.reads formed
  refine .of_succ ?_
  cases type with
  | mk isUniform type =>
      cases isUniform with
      | true => exact reads.followed (.const _)
      | false => exact reads.followed (.const _)

end Shady.Slim.Parser
