import Shady.Library.Fallible
import Shady.Passes.DemoteAlloca

/-!
# What the analysis of the uses finds

The analysis follows casts and nothing else. When it succeeds without a leak, every use of the
address and of what is cast from it has set its flag; the bound on its depth is never reached.
-/

set_option autoImplicit false

namespace Shady.DemoteAlloca
open Fallible

/-- A cast of `u`. -/
inductive CastOf (u : IrValue) : IrValue → Prop
  | convert (types : List IrType) (tail : IrValues) (type : IrType) :
      CastOf u (.primOp .convert types (.cons u tail) type)
  | reinterpret (types : List IrType) (tail : IrValues) (type : IrType) :
      CastOf u (.primOp .reinterpret types (.cons u tail) type)

/-- Casts that lead from `v` to `w`, as values of the function. -/
inductive CastChain (f : FunctionBody) : IrValue → IrValue → Prop
  | refl (v : IrValue) : CastChain f v v
  | cast {v u w : IrValue} (cast : CastOf v u) (used : u ∈ f.values) (rest : CastChain f u w) : CastChain f v w

theorem CastOf.operand {u w : IrValue} (cast : CastOf u w) : u ∈ w.operands := by
  cases cast <;> exact List.mem_cons_self

/-- Flags are only set. -/
structure AllocaInfo.Includes (k k' : AllocaInfo) : Prop where
  leaks : k.leaks = true → k'.leaks = true
  readFrom : k.readFrom = true → k'.readFrom = true
  nonLogicalUse : k.nonLogicalUse = true → k'.nonLogicalUse = true

namespace AllocaInfo.Includes

theorem refl (k : AllocaInfo) : k.Includes k := ⟨id, id, id⟩

theorem trans {k k' k'' : AllocaInfo} (first : k.Includes k') (second : k'.Includes k'') : k.Includes k'' :=
  ⟨second.leaks ∘ first.leaks, second.readFrom ∘ first.readFrom, second.nonLogicalUse ∘ first.nonLogicalUse⟩

end AllocaInfo.Includes

/-- The flag that a use sets. -/
def Noted (ptrValue : IrValue) (k : AllocaInfo) : Use → Prop
  | .instr (.load _ _) => k.readFrom = true
  | .instr (.store _ value) => ptrValue = value → k.leaks = true
  | .value (.primOp op _ _ _) =>
      ((op = .reinterpret ∨ op = .convert) → k.leaks = true ∨ k.nonLogicalUse = true) ∧
        (op.hasSideEffects = true → k.leaks = true)
  | _ => k.leaks = true

theorem Noted.later {ptrValue : IrValue} {k k' : AllocaInfo} {use : Use} (noted : Noted ptrValue k use)
    (includes : k.Includes k') : Noted ptrValue k' use := by
  unfold Noted at noted ⊢
  split at noted
  case h_1 => exact includes.readFrom noted
  case h_2 => exact fun stored => includes.leaks (noted stored)
  case h_3 =>
    constructor
    · intro cast
      exact (noted.1 cast).imp includes.leaks includes.nonLogicalUse
    · exact fun effects => includes.leaks (noted.2 effects)
  case h_4 => exact includes.leaks noted

section Visit
variable {config : TypesConfig} {f : FunctionBody}

/-- The uses of all that is cast from `v` are noted, or there is a leak. -/
def ChainNoted (f : FunctionBody) (v : IrValue) (k : AllocaInfo) : Prop :=
  ∀ w, CastChain f v w → k.leaks = true ∨ ∀ use ∈ f.usesOf w, Noted w k use

theorem ChainNoted.later {v : IrValue} {k k' : AllocaInfo} (noted : ChainNoted f v k) (includes : k.Includes k') :
    ChainNoted f v k' := by
  intro w chain
  cases noted w chain with
  | inl leaks => exact .inl (includes.leaks leaks)
  | inr uses => exact .inr fun use member => (uses use member).later includes

theorem mem_usesOf_value {v user : IrValue} : Use.value user ∈ f.usesOf v ↔ user ∈ f.values ∧ v ∈ user.operands := by
  simp [FunctionBody.usesOf]

theorem mem_usesOf_instr {v : IrValue} {user : Instr} : Use.instr user ∈ f.usesOf v ↔ user ∈ f.instrs ∧ v ∈ user.operands := by
  simp [FunctionBody.usesOf]

theorem mem_usesOf_terminator {v : IrValue} :
    Use.terminator ∈ f.usesOf v ↔ ∃ block ∈ f.blocks, v ∈ block.terminatorOperands := by
  simp [FunctionBody.usesOf]

/-- What one turn of the loop establishes. -/
def TurnNoted (f : FunctionBody) (v : IrValue) (use : Use) (k : AllocaInfo) : Prop :=
  Noted v k use ∧ ∀ u, use = .value u → CastOf v u → k.leaks = true ∨ ChainNoted f u k

theorem visitUse_notes {visit : IrValue → AllocaInfo → Except CheckError AllocaInfo}
    (visited : ∀ u k k', visit u k = .ok k' → k.Includes k' ∧ ChainNoted f u k') {v : IrValue} {use : Use}
    {k k' : AllocaInfo} (run : visitUse visit v k use = .ok k') : k.Includes k' ∧ TurnNoted f v use k' := by
  unfold visitUse at run
  split at run
  case h_1 =>
    cases run
    exact ⟨⟨id, fun _ => rfl, id⟩, rfl, nofun⟩
  case h_2 ptr value =>
    cases run
    by_cases stored : v = value
    · rw [if_pos stored]
      exact ⟨⟨fun _ => rfl, id, id⟩, fun _ => rfl, nofun⟩
    · rw [if_neg stored]
      exact ⟨.refl k, fun same => absurd same stored, nofun⟩
  case h_3 op types operands type =>
    dsimp only at run
    split at run
    · have called := visited _ _ _ run
      have nonLogical := called.1.nonLogicalUse rfl
      refine ⟨⟨called.1.leaks, called.1.readFrom, fun _ => nonLogical⟩, ⟨fun _ => .inr nonLogical, nofun⟩, ?_⟩
      intro u same _
      cases same
      exact .inr called.2
    · split at run
      · cases run
      · split_ifs at run
        · have called := visited _ _ _ run
          have nonLogical := called.1.nonLogicalUse rfl
          refine ⟨⟨called.1.leaks, called.1.readFrom, fun _ => nonLogical⟩, ⟨fun _ => .inr nonLogical, nofun⟩, ?_⟩
          intro u same _
          cases same
          exact .inr called.2
        · cases run
          exact ⟨⟨fun _ => rfl, id, id⟩, ⟨fun _ => .inl rfl, fun _ => rfl⟩, fun _ _ _ => .inl rfl⟩
    · rename_i noReinterpret noConvert
      have noCast : ∀ u, Use.value (.primOp op types operands type) = .value u → ¬ CastOf v u := by
        intro u same cast
        cases same
        cases cast
        · exact noConvert rfl
        · exact noReinterpret rfl
      cases run
      by_cases effects : op.hasSideEffects = true
      · rw [if_pos effects]
        exact ⟨⟨fun _ => rfl, id, id⟩, ⟨fun _ => .inl rfl, fun _ => rfl⟩, fun _ _ _ => .inl rfl⟩
      · rw [if_neg effects]
        refine ⟨.refl k, ⟨fun cast => ?_, fun has => absurd has effects⟩, fun u same cast => absurd cast (noCast u same)⟩
        cases cast with
        | inl reinterpret => exact absurd reinterpret noReinterpret
        | inr convert => exact absurd convert noConvert
  case h_4 noLoad noStore noOp =>
    cases run
    refine ⟨⟨fun _ => rfl, id, id⟩, ?_, fun _ _ _ => .inl rfl⟩
    unfold Noted
    split
    · exact absurd rfl (noLoad _ _)
    · exact fun _ => rfl
    · exact absurd rfl (noOp _ _ _ _)
    · rfl

theorem visitPtrUses_notes {fuel : Nat} {v : IrValue} {k k' : AllocaInfo}
    (run : visitPtrUses config f fuel v k = .ok k') : k.Includes k' ∧ ChainNoted f v k' := by
  induction fuel generalizing v k k' with
  | zero => cases run
  | succ fuel ih =>
      obtain ⟨_, -, run⟩ := bind_eq_ok.mp run
      obtain ⟨_, -, run⟩ := bind_eq_ok.mp run
      have turns := foldlM_each AllocaInfo.Includes (TurnNoted f v) .refl .trans
        (fun use s s' noted includes => ⟨noted.1.later includes, fun u same cast =>
          (noted.2 u same cast).imp includes.leaks fun chain => chain.later includes⟩)
        (fun use _ s s' step => visitUse_notes (fun _ _ _ => ih) step) run
      constructor
      · exact turns.1
      · intro w chain
        cases chain with
        | refl => exact .inr fun use member => (turns.2 use member).1
        | @cast _ u _ castTo used rest =>
            have listed : Use.value u ∈ f.usesOf v := mem_usesOf_value.mpr ⟨used, castTo.operand⟩
            cases (turns.2 _ listed).2 _ rfl castTo with
            | inl leaks => exact .inl leaks
            | inr noted => exact noted w rest

/-! ## The depth of the analysis -/

theorem IrValues.size_lt {v : IrValue} {values : IrValues} (member : v ∈ values.toList) : sizeOf v < sizeOf values := by
  induction values using IrValues.rec (motive_1 := fun _ => True) with
  | nil => cases member
  | cons head tail _ ih =>
      cases List.mem_cons.mp member with
      | inl same =>
          subst same
          simp only [IrValues.cons.sizeOf_spec]
          omega
      | inr later =>
          have smaller := ih later
          simp only [IrValues.cons.sizeOf_spec]
          omega
  | _ => trivial

theorem size_operand {v : IrValue} {op : Op} {types : List IrType} {operands : IrValues} {type : IrType}
    (member : v ∈ operands.toList) : sizeOf v < sizeOf (IrValue.primOp op types operands type) := by
  have smaller := IrValues.size_lt member
  simp only [IrValue.primOp.sizeOf_spec]
  omega

/-- The values that a chain of casts from `v` can still reach. -/
noncomputable def larger (f : FunctionBody) (v : IrValue) : Nat := f.values.countP fun w => decide (sizeOf v < sizeOf w)

theorem visitPtrUses_deep {fuel : Nat} {v : IrValue} {k : AllocaInfo} (enough : larger f v < fuel) :
    visitPtrUses config f fuel v k ≠ .error .outOfFuel := by
  induction fuel generalizing v k with
  | zero => exact absurd enough (Nat.not_lt_zero _)
  | succ fuel ih =>
      intro run
      -- the visit of a cast that uses `v`
      have deeper : ∀ op types operands type k', Use.value (.primOp op types operands type) ∈ f.usesOf v →
          visitPtrUses config f fuel (.primOp op types operands type) k' ≠ .error .outOfFuel := by
        intro op types operands type k' listed
        obtain ⟨used, operand⟩ := mem_usesOf_value.mp listed
        have grows : sizeOf v < sizeOf (IrValue.primOp op types operands type) := size_operand operand
        have fewer : larger f (.primOp op types operands type) < larger f v := by
          apply countP_lt _ used
          · simp
          · simpa using grows
          · intro w _ bigger
            simp only [decide_eq_true_eq] at bigger ⊢
            omega
        apply ih
        omega
      rw [visitPtrUses, bind_eq_error] at run
      cases run with
      | inl died =>
          unfold IrType.deconstructQualifiedType at died
          split at died <;> cases died
      | inr run =>
          obtain ⟨parts, -, run⟩ := run
          cases bind_eq_error.mp run with
          | inl failed =>
              unfold ensure at failed
              split_ifs at failed
              cases failed
          | inr run =>
              obtain ⟨_, -, run⟩ := run
              obtain ⟨use, listed, k', turn⟩ := foldlM_error run
              unfold visitUse at turn
              split at turn
              case h_3 op types operands type =>
                dsimp only at turn
                split at turn
                · exact deeper _ _ _ _ _ listed turn
                · split at turn
                  · cases turn
                  · split_ifs at turn
                    exact deeper _ _ _ _ _ listed turn
                · cases turn
              all_goals cases turn

/-- The bound of the model on the depth of casts is never reached. -/
theorem allocaInfo_deep (alloc : Alloc) : allocaInfo config f alloc ≠ .error .outOfFuel :=
  visitPtrUses_deep (Nat.lt_succ_of_le List.countP_le_length)

end Visit

end Shady.DemoteAlloca
