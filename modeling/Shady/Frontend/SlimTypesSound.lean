import Shady.Frontend.SlimParserReads
import Mathlib.Data.List.Basic

/-!
# What is read is written in the grammar

What soundness says of each function that recurs, and the steps of it for tokens and for types. The
induction is on fuel: a function may rely on those that it calls.
-/

set_option autoImplicit false

namespace Shady.Slim.Parser

open Fallible

variable {α : Type} {frontEnd : Bool}

/-! ## Single tokens -/

theorem of_acceptToken_true {tag : TokenTag} {tokens rest : List Lexeme}
    (found : acceptToken tag tokens = (true, rest)) : tokens = .word tag :: rest := by
  cases tokens with
  | nil => cases found
  | cons first more =>
      cases first with
      | word t =>
          rw [acceptToken] at found
          by_cases same : t = tag
          · rw [if_pos same] at found
            cases found
            rw [same]
          · rw [if_neg same] at found
            cases found
      | _ => cases found

theorem of_acceptToken_false {tag : TokenTag} {tokens rest : List Lexeme}
    (found : acceptToken tag tokens = (false, rest)) : rest = tokens := by
  cases tokens with
  | nil => exact (Prod.mk.inj found).2.symm
  | cons first more =>
      cases first with
      | word t =>
          rw [acceptToken] at found
          by_cases same : t = tag
          · rw [if_pos same] at found
            cases found
          · rw [if_neg same] at found
            exact (Prod.mk.inj found).2.symm
      | _ => exact (Prod.mk.inj found).2.symm

theorem of_expectToken {tag : TokenTag} {what : String} {tokens rest : List Lexeme}
    (ran : expectToken tag what tokens = .ok rest) : tokens = .word tag :: rest := by
  rw [expectToken] at ran
  cases found : acceptToken tag tokens with
  | mk accepted more =>
      rw [found] at ran
      cases accepted with
      | true =>
          cases ran
          exact of_acceptToken_true found
      | false => cases ran

theorem of_expectNode {what : String} {node : Option α} {a : α}
    (ran : expectNode what node = .ok a) : node = some a := by
  cases node with
  | none => cases ran
  | some b =>
      cases ran
      rfl

theorem token_of_numericTypeOf {t : TokenTag} {type : NumericType}
    (found : numericTypeOf t = some type) : type.token = t := by
  cases t <;> cases found <;> rfl

theorem of_acceptNumericalType_some {tokens rest : List Lexeme} {type : NumericType}
    (found : acceptNumericalType tokens = (some type, rest)) :
    tokens = .word type.token :: rest := by
  cases tokens with
  | nil => cases found
  | cons first more =>
      cases first with
      | word t =>
          rw [acceptNumericalType] at found
          cases named : numericTypeOf t with
          | none =>
              rw [named] at found
              cases found
          | some type' =>
              rw [named] at found
              cases found
              rw [token_of_numericTypeOf named]
      | _ => cases found

theorem of_acceptNumericalType_none {tokens rest : List Lexeme}
    (found : acceptNumericalType tokens = (none, rest)) : rest = tokens := by
  cases tokens with
  | nil => exact (Prod.mk.inj found).2.symm
  | cons first more =>
      cases first with
      | word t =>
          rw [acceptNumericalType] at found
          cases named : numericTypeOf t with
          | none =>
              rw [named] at found
              exact (Prod.mk.inj found).2.symm
          | some type' =>
              rw [named] at found
              cases found
      | _ => exact (Prod.mk.inj found).2.symm

/-! ## Numbers -/

theorem of_numericalLiteral_none {type : Option NumericType} {negate : Bool}
    {tokens rest : List Lexeme} (ran : numericalLiteral type negate tokens = .ok (none, rest)) :
    rest = tokens ∧ negate = false ∧ type = none := by
  rw [numericalLiteral.eq_def] at ran
  split at ran
  · cases negate with
    | true => cases ran
    | false => cases ran
  · cases ran
  · cases negate with
    | true => cases ran
    | false =>
        cases type with
        | some type => cases ran
        | none =>
            cases ran
            exact ⟨rfl, rfl, rfl⟩

theorem of_numericalLiteral_some {type : Option NumericType} {negate : Bool}
    {tokens rest : List Lexeme} {n : Number}
    (ran : numericalLiteral type negate tokens = .ok (some n, rest)) :
    n.type = type ∧
      (if negate then [.word .minusTok] else []) ++ tokens = n.literal.text ++ rest := by
  rw [numericalLiteral.eq_def] at ran
  split at ran
  · cases negate with
    | true => cases ran
    | false =>
        cases ran
        exact ⟨rfl, rfl⟩
  · cases ran
    exact ⟨rfl, by simp [Literal.text]⟩
  · cases negate with
    | true => cases ran
    | false =>
        cases type with
        | some type => cases ran
        | none => cases ran

/-- The optional type and the optional sign in front of a literal. -/
theorem acceptNumericalLiteral_split (tokens : List Lexeme) :
    ∃ type negate rest, acceptNumericalLiteral tokens = numericalLiteral type negate rest ∧
      tokens = (type.toList.map fun type => .word type.token) ++
        ((if negate then [.word .minusTok] else []) ++ rest) := by
  rw [acceptNumericalLiteral]
  cases typed : acceptNumericalType tokens with
  | mk type tokens₁ =>
      cases signed : acceptToken .minusTok tokens₁ with
      | mk negate tokens₂ =>
          refine ⟨type, negate, tokens₂, by simp only [signed], ?_⟩
          have sign : tokens₁ = (if negate then [.word .minusTok] else []) ++ tokens₂ := by
            cases negate with
            | true => exact of_acceptToken_true signed
            | false => exact (of_acceptToken_false signed).symm
          rw [← sign]
          cases type with
          | none => exact (of_acceptNumericalType_none typed).symm
          | some type => exact of_acceptNumericalType_some typed

theorem of_acceptNumericalLiteral_none {tokens rest : List Lexeme}
    (ran : acceptNumericalLiteral tokens = .ok (none, rest)) : rest = tokens := by
  obtain ⟨type, negate, literal, same, begins⟩ := acceptNumericalLiteral_split tokens
  rw [same] at ran
  obtain ⟨left, rfl, rfl⟩ := of_numericalLiteral_none ran
  rw [left, begins]
  rfl

theorem of_acceptNumericalLiteral_some {tokens rest : List Lexeme} {n : Number}
    (ran : acceptNumericalLiteral tokens = .ok (some n, rest)) : tokens = n.text ++ rest := by
  obtain ⟨type, negate, literal, same, begins⟩ := acceptNumericalLiteral_split tokens
  rw [same] at ran
  obtain ⟨typed, read⟩ := of_numericalLiteral_some ran
  rw [begins, read, Number.text, typed, List.append_assoc]

theorem token_of_addressSpaceOf {t : TokenTag} {addressSpace : SlimAddressSpace}
    (found : addressSpaceOf t = some addressSpace) : addressSpace.token = t := by
  cases t <;> cases found <;> rfl

theorem of_expectAddressSpace {tokens rest : List Lexeme} {addressSpace : SlimAddressSpace}
    (ran : expectAddressSpace tokens = .ok (addressSpace, rest)) :
    tokens = .word addressSpace.token :: rest := by
  cases tokens with
  | nil => cases ran
  | cons first more =>
      cases first with
      | word t =>
          rw [expectAddressSpace] at ran
          cases found : addressSpaceOf t with
          | none =>
              rw [found] at ran
              cases ran
          | some addressSpace' =>
              rw [found] at ran
              cases ran
              rw [token_of_addressSpaceOf found]
      | _ => cases ran

theorem of_expectIdentifier {what id : String} {tokens rest : List Lexeme}
    (ran : expectIdentifier what tokens = .ok (id, rest)) : tokens = .identifier id :: rest := by
  cases tokens with
  | nil => cases ran
  | cons first more =>
      cases first with
      | identifier name =>
          cases ran
          rfl
      | _ => cases ran

theorem of_packWidth {n : Option Number} {literal : Literal} (ran : packWidth n = .ok literal) :
    n = some ⟨none, literal⟩ := by
  rw [packWidth.eq_def] at ran
  split at ran
  · cases ran
    rfl
  · cases ran

/-! ## What soundness says -/

/-- The tokens in front of the rest spell an expression that fits a place. -/
structure Spells (frontEnd bb : Bool) (place : Int) (tokens : List Lexeme) (e : Expr)
    (rest : List Lexeme) (s : Syn) : Prop where
  formed : Formed frontEnd bb s
  fits : Fits place s
  tree : s.tree = e
  text : tokens = s.text ++ rest

/-- The tokens in front of the rest spell a list of operands. -/
structure SpellsAll (frontEnd bb : Bool) (listText : List Syn → List Lexeme) (tokens : List Lexeme)
    (es : List Expr) (rest : List Lexeme) (ops : List Syn) : Prop where
  formed : ∀ s ∈ ops, Formed frontEnd bb s
  fits : ∀ s ∈ ops, Fits (operandPlace frontEnd) s
  trees : trees ops = es
  text : tokens = listText ops ++ rest

/-- What the functions that recur do with some fuel. -/
structure Sound (frontEnd : Bool) (fuel : Nat) : Prop where
  type : ∀ {tokens rest t}, acceptUnqualifiedType frontEnd fuel tokens = .ok (some t, rest) →
    tokens = t.text ++ rest ∧ t.Formed frontEnd
  members : ∀ {tokens rest members}, structMembers frontEnd fuel tokens = .ok (members, rest) →
    tokens = members.text ++ rest ∧ members.Formed frontEnd
  typeArguments : ∀ {tokens rest types}, typeArguments frontEnd fuel tokens = .ok (types, rest) →
    ∃ first more, types = (TypeArguments.brackets first more).types ∧
      tokens = first.text ++ (furtherText more ++ rest) ∧ ∀ type ∈ types, type.Formed frontEnd
  value : ∀ {bb tokens rest e}, acceptValue frontEnd bb fuel tokens = .ok (some e, rest) →
    ∃ s, Spells frontEnd bb (-3) tokens e rest s
  noValue : ∀ {bb tokens rest}, acceptValue frontEnd bb fuel tokens = .ok (none, rest) →
    rest = tokens
  elements : ∀ {bb tokens rest es}, tupleElements frontEnd bb fuel tokens = .ok (es, rest) →
    ∃ ops, SpellsAll frontEnd bb elementsText tokens es rest ops
  operandsFrom : ∀ {bb expect tokens rest es},
    operandsFrom frontEnd bb expect fuel tokens = .ok (es, rest) →
      (frontEnd = true → bb = true) ∧ ∃ ops, (expect = true → ops ≠ []) ∧
        SpellsAll frontEnd bb operandsText (.word .lparTok :: tokens) es rest ops
  primary : ∀ {bb tokens rest e}, acceptPrimaryExpr frontEnd bb fuel tokens = .ok (some e, rest) →
    bb = true ∧ ∃ s, Spells frontEnd true (-2) tokens e rest s
  noPrimary : ∀ {bb tokens rest}, acceptPrimaryExpr frontEnd bb fuel tokens = .ok (none, rest) →
    bb = true ∧ rest = tokens
  expr : ∀ {bb outer tokens rest e},
    acceptExpr frontEnd bb fuel outer tokens = .ok (some e, rest) → -1 ≤ outer →
      bb = true ∧ (∃ s, Spells frontEnd true outer tokens e rest s) ∧ ¬ Continues outer rest
  noExpr : ∀ {bb outer tokens rest}, acceptExpr frontEnd bb fuel outer tokens = .ok (none, rest) →
    -1 ≤ outer → bb = true ∧ rest = tokens
  -- what was read before does not bind looser than what follows
  loop : ∀ {outer e tokens rest result s whole},
    exprLoop frontEnd true fuel outer e tokens = .ok (result, rest) → -1 ≤ outer →
      Spells frontEnd true outer whole e tokens s →
      (0 ≤ s.level → ¬ Continues (s.level - 1) tokens) →
        ∃ e' s', result = some e' ∧ Spells frontEnd true outer whole e' rest s' ∧
          ¬ Continues outer rest

/-- What a function relies on. -/
def Below (frontEnd : Bool) (fuel : Nat) : Prop := ∀ less < fuel, Sound frontEnd less

variable {fuel : Nat}

theorem Below.here (below : Below frontEnd (fuel + 1)) : Sound frontEnd fuel :=
  below fuel (Nat.lt_succ_self fuel)

theorem Below.down (below : Below frontEnd (fuel + 1)) : Below frontEnd fuel :=
  fun less lt => below less (Nat.lt_succ_of_lt lt)

/-! ## Types -/

theorem pointerType_sound (below : Below frontEnd fuel) {isReference : Bool}
    {tokens rest : List Lexeme} {t : SlimType}
    (ran : pointerType frontEnd isReference fuel tokens = .ok (some t, rest)) :
    .word (if isReference then .refTok else .ptrTok) :: tokens = t.text ++ rest ∧
      t.Formed frontEnd := by
  cases fuel with
  | zero => cases ran
  | succ fuel =>
      rw [pointerType] at ran
      obtain ⟨⟨addressSpace, rest₁⟩, spaced, ran⟩ := bind_eq_ok.mp ran
      obtain ⟨⟨elemType, rest₂⟩, typed, ran⟩ := bind_eq_ok.mp ran
      obtain ⟨elem, there, ran⟩ := bind_eq_ok.mp ran
      rw [of_expectNode there] at typed
      cases ran
      have pointed := below.here.type typed
      exact ⟨by rw [of_expectAddressSpace spaced, pointed.1]; rfl, pointed.2⟩

/-- Without a body builder, a value of the front end has no operands. -/
theorem Formed.tree_leaf {s : Syn} (formed : Formed true false s) {l : Leaf}
    (same : s.tree = .leaf l) : s = .leaf l := by
  cases formed with
  | leaf =>
      cases same
      rfl
  | paren builds => cases builds rfl
  | tuple builds => cases builds rfl
  | composite builds => cases builds rfl

theorem arraySizeOf_sound (below : Below true fuel) {tokens rest : List Lexeme}
    {size : Option Leaf} (ran : arraySizeOf true fuel tokens = .ok (size, rest)) :
    tokens = sizeText size ++ rest := by
  cases fuel with
  | zero => cases ran
  | succ fuel =>
      rw [arraySizeOf] at ran
      cases found : acceptToken .semiTok tokens with
      | mk sized rest₁ =>
          rw [found] at ran
          cases sized with
          | false =>
              cases ran
              exact (of_acceptToken_false found).symm
          | true =>
              obtain ⟨⟨value, rest₂⟩, valued, ran⟩ := bind_eq_ok.mp ran
              obtain ⟨e, there, ran⟩ := bind_eq_ok.mp ran
              obtain ⟨leaf, isLeaf, ran⟩ := bind_eq_ok.mp ran
              rw [of_expectNode there] at valued
              rw [of_acceptToken_true found]
              cases ran
              obtain ⟨s, spells⟩ := below.here.value valued
              have tree : s.tree = .leaf leaf := by
                rw [spells.tree]
                cases e with
                | leaf l =>
                    cases isLeaf
                    rfl
                | _ => cases isLeaf
              rw [spells.text, spells.formed.tree_leaf tree]
              rfl

theorem arrayType_sound (below : Below true fuel) {tokens rest : List Lexeme} {t : SlimType}
    (ran : arrayType true fuel tokens = .ok (some t, rest)) :
    .word .lsbracketTok :: tokens = t.text ++ rest ∧ t.Formed true := by
  cases fuel with
  | zero => cases ran
  | succ fuel =>
      rw [arrayType] at ran
      obtain ⟨⟨elemType, rest₁⟩, typed, ran⟩ := bind_eq_ok.mp ran
      obtain ⟨elem, there, ran⟩ := bind_eq_ok.mp ran
      obtain ⟨⟨size, rest₂⟩, sized, ran⟩ := bind_eq_ok.mp ran
      obtain ⟨rest₃, closed, ran⟩ := bind_eq_ok.mp ran
      rw [of_expectNode there] at typed
      cases ran
      have element := below.here.type typed
      have sizeRead := arraySizeOf_sound below.down sized
      rw [of_expectToken closed] at sizeRead
      refine ⟨?_, rfl, element.2⟩
      rw [element.1, sizeRead]
      simp [SlimType.text]

theorem packType_sound (below : Below frontEnd fuel) {tokens rest : List Lexeme} {t : SlimType}
    (ran : packType frontEnd fuel tokens = .ok (some t, rest)) :
    .word .packTok :: tokens = t.text ++ rest ∧ t.Formed frontEnd := by
  cases fuel with
  | zero => cases ran
  | succ fuel =>
      rw [packType] at ran
      obtain ⟨rest₁, opened, ran⟩ := bind_eq_ok.mp ran
      obtain ⟨⟨elemType, rest₂⟩, typed, ran⟩ := bind_eq_ok.mp ran
      obtain ⟨elem, there, ran⟩ := bind_eq_ok.mp ran
      obtain ⟨rest₃, apart, ran⟩ := bind_eq_ok.mp ran
      obtain ⟨⟨size, rest₄⟩, sized, ran⟩ := bind_eq_ok.mp ran
      obtain ⟨width, isWidth, ran⟩ := bind_eq_ok.mp ran
      obtain ⟨rest₅, closed, ran⟩ := bind_eq_ok.mp ran
      rw [of_expectNode there] at typed
      rw [of_packWidth isWidth] at sized
      cases ran
      have element := below.here.type typed
      have number : rest₃ = width.text ++ rest₄ := of_acceptNumericalLiteral_some sized
      refine ⟨?_, element.2⟩
      rw [of_expectToken opened, element.1, of_expectToken apart, number, of_expectToken closed]
      simp [SlimType.text]

theorem structMembers_sound (below : Below frontEnd fuel) {tokens rest : List Lexeme}
    {members : SlimMembers} (ran : structMembers frontEnd fuel tokens = .ok (members, rest)) :
    tokens = members.text ++ rest ∧ members.Formed frontEnd := by
  cases fuel with
  | zero => cases ran
  | succ fuel =>
      rw [structMembers] at ran
      cases found : acceptToken .rbracketTok tokens with
      | mk ended rest₁ =>
          rw [found] at ran
          cases ended with
          | true =>
              cases ran
              exact ⟨of_acceptToken_true found, trivial⟩
          | false =>
              obtain ⟨⟨elemType, rest₂⟩, typed, ran⟩ := bind_eq_ok.mp ran
              obtain ⟨elem, there, ran⟩ := bind_eq_ok.mp ran
              obtain ⟨⟨id, rest₃⟩, named, ran⟩ := bind_eq_ok.mp ran
              obtain ⟨rest₄, apart, ran⟩ := bind_eq_ok.mp ran
              obtain ⟨⟨more, rest₅⟩, others, ran⟩ := bind_eq_ok.mp ran
              rw [of_expectNode there] at typed
              cases ran
              have member := below.here.type typed
              have further := below.here.members others
              refine ⟨?_, member.2, further.2⟩
              rw [← of_acceptToken_false found, member.1, of_expectIdentifier named,
                of_expectToken apart, further.1]
              simp [SlimMembers.text]

theorem acceptUnqualifiedType_sound (below : Below frontEnd fuel) {tokens rest : List Lexeme}
    {t : SlimType} (ran : acceptUnqualifiedType frontEnd fuel tokens = .ok (some t, rest)) :
    tokens = t.text ++ rest ∧ t.Formed frontEnd := by
  cases fuel with
  | zero => cases ran
  | succ fuel =>
      rw [acceptUnqualifiedType.eq_def] at ran
      cases numeric : acceptNumericalType tokens with
      | mk type rest₁ =>
          simp only [numeric] at ran
          cases type with
          | some type =>
              cases ran
              exact ⟨of_acceptNumericalType_some numeric, trivial⟩
          | none =>
              dsimp only at ran
              split at ran
              · cases ran
                exact ⟨rfl, trivial⟩
              · cases ran
                exact ⟨rfl, trivial⟩
              · exact pointerType_sound below.down ran
              · exact pointerType_sound below.down ran
              · cases frontEnd with
                | true => exact arrayType_sound below.down ran
                | false => cases ran
              · exact packType_sound below.down ran
              · obtain ⟨rest₂, opened, ran⟩ := bind_eq_ok.mp ran
                obtain ⟨⟨members, rest₃⟩, held, ran⟩ := bind_eq_ok.mp ran
                cases ran
                have record := structMembers_sound below.down held
                exact ⟨by rw [of_expectToken opened, record.1]; rfl, record.2⟩
              · cases ran
                exact ⟨rfl, trivial⟩
              · cases ran

/-! ## Type arguments -/

theorem typeArguments_sound (below : Below frontEnd fuel) {tokens rest : List Lexeme}
    {types : List SlimType} (ran : typeArguments frontEnd fuel tokens = .ok (types, rest)) :
    ∃ first more, types = (TypeArguments.brackets first more).types ∧
      tokens = first.text ++ (furtherText more ++ rest) ∧ ∀ type ∈ types, type.Formed frontEnd := by
  cases fuel with
  | zero => cases ran
  | succ fuel =>
      rw [typeArguments] at ran
      obtain ⟨⟨type, rest₁⟩, typed, ran⟩ := bind_eq_ok.mp ran
      obtain ⟨first, there, ran⟩ := bind_eq_ok.mp ran
      rw [of_expectNode there] at typed
      have head := below.here.type typed
      -- a comma and a further type argument, or the latter alone
      have cons : ∀ (comma : Bool) {rest₂ : List Lexeme} {further : List SlimType},
          rest₁ = (if comma then [.word .commaTok] else []) ++ rest₂ →
          typeArguments frontEnd fuel rest₂ = .ok (further, rest) → types = first :: further →
          ∃ first more, types = (TypeArguments.brackets first more).types ∧
            tokens = first.text ++ (furtherText more ++ rest) ∧
              ∀ type ∈ types, type.Formed frontEnd := by
        intro comma rest₂ further apart others same
        obtain ⟨next, more, names, text, formed⟩ := below.here.typeArguments others
        refine ⟨first, (comma, next) :: more, ?_, ?_, ?_⟩
        · rw [same, names]
          rfl
        · rw [head.1, apart, text]
          simp [furtherText]
        · rw [same]
          exact List.forall_mem_cons.mpr ⟨head.2, formed⟩
      cases separated : acceptToken .commaTok rest₁ with
      | mk comma rest₂ =>
          rw [separated] at ran
          cases comma with
          | true =>
              obtain ⟨⟨further, rest₃⟩, others, ran⟩ := bind_eq_ok.mp ran
              cases ran
              refine cons true ?_ others rfl
              exact of_acceptToken_true separated
          | false =>
              cases closed : acceptToken .rsbracketTok rest₂ with
              | mk ended rest₃ =>
                  dsimp only at ran
                  rw [closed] at ran
                  rw [of_acceptToken_false separated] at closed
                  cases ended with
                  | true =>
                      cases ran
                      refine ⟨first, [], rfl, ?_, ?_⟩
                      · rw [head.1, of_acceptToken_true closed]
                        rfl
                      · exact List.forall_mem_cons.mpr ⟨head.2, fun _ held => by cases held⟩
                  | false =>
                      obtain ⟨⟨further, rest₄⟩, others, ran⟩ := bind_eq_ok.mp ran
                      cases ran
                      refine cons false ?_ others rfl
                      exact (of_acceptToken_false closed).symm

theorem acceptTypeArguments_sound (below : Below frontEnd fuel) {tokens rest : List Lexeme}
    {types : List SlimType} (ran : acceptTypeArguments frontEnd fuel tokens = .ok (types, rest)) :
    ∃ written : TypeArguments, types = written.types ∧ tokens = written.text ++ rest ∧
      ∀ type ∈ types, type.Formed frontEnd := by
  cases fuel with
  | zero => cases ran
  | succ fuel =>
      rw [acceptTypeArguments] at ran
      cases found : acceptToken .lsbracketTok tokens with
      | mk opened rest₁ =>
          rw [found] at ran
          cases opened with
          | true =>
              obtain ⟨first, more, names, text, formed⟩ := below.here.typeArguments ran
              refine ⟨.brackets first more, names, ?_, formed⟩
              rw [of_acceptToken_true found, text]
              simp [TypeArguments.text]
          | false =>
              cases ran
              exact ⟨.absent, rfl, (of_acceptToken_false found).symm, fun _ held => by cases held⟩

theorem of_acceptUniformityQualifier {tokens rest : List Lexeme} {isUniform : Bool}
    (found : acceptUniformityQualifier tokens = (some isUniform, rest)) :
    tokens = .word (if isUniform then .uniformTok else .varyingTok) :: rest := by
  rw [acceptUniformityQualifier.eq_def] at found
  split at found
  · cases found
    rfl
  · cases found
    rfl
  · cases found

theorem expectQualifiedType_sound (below : Below frontEnd fuel) {tokens rest : List Lexeme}
    {type : QualifiedType}
    (ran : expectQualifiedType frontEnd fuel tokens = .ok (type, rest)) :
    tokens = type.text ++ rest ∧ type.type.Formed frontEnd := by
  cases fuel with
  | zero => cases ran
  | succ fuel =>
      rw [expectQualifiedType] at ran
      cases found : acceptUniformityQualifier tokens with
      | mk isUniform rest₁ =>
          rw [found] at ran
          cases isUniform with
          | none => cases ran
          | some isUniform =>
              obtain ⟨⟨unqualified, rest₂⟩, typed, ran⟩ := bind_eq_ok.mp ran
              obtain ⟨t, there, ran⟩ := bind_eq_ok.mp ran
              rw [of_expectNode there] at typed
              cases ran
              have element := below.here.type typed
              rw [of_acceptUniformityQualifier found, element.1]
              exact ⟨rfl, element.2⟩

end Shady.Slim.Parser
