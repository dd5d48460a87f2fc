import Shady.Ir.IntLiteral

/-!
# Integers in SPIR-V

The words that `src/backend/spirv` writes for integer literals, as constants and as the case
labels of switches, and what `src/frontend/spirv/s2s.c` reads back. The format extends a value
that is narrower than a word according to the signedness of its type.
-/

set_option autoImplicit false

namespace Shady.Spirv

abbrev Word := BitVec 32

abbrev SpvOp := BitVec 32

abbrev SpvId := BitVec 32

/-- `op_`; the size is an `int`. -/
def op (opcode : SpvOp) (opsSize : Nat) : Word :=
  let lower := opcode &&& 0xFFFF
  let upper := (BitVec.ofNat 32 opsSize <<< 16) &&& 0xFFFF0000
  lower ||| upper

def opConstant : SpvOp := 43

def opSwitch : SpvOp := 251

/-- `spvb_constant` -/
def spvbConstant (result type : SpvId) (bitPattern : List Word) : List Word :=
  op opConstant (3 + bitPattern.length) :: type :: result :: bitPattern

/-- `spvb_switch` -/
def spvbSwitch (selector defaultTarget : SpvId) (targetsAndLiterals : List Word) : List Word :=
  op opSwitch (3 + targetsAndLiterals.length) :: selector :: defaultTarget :: targetsAndLiterals

/-! ## Encoders -/

/-- The bit pattern of an `IntLiteral` in `spv_emit_value_` -/
def literalWords (lit : IntLiteral) : List Word :=
  if lit.width = .intTy64 then [(lit.value &&& 0xFFFFFFFF).setWidth 32, (lit.value >>> 32).setWidth 32]
  else [lit.value.setWidth 32]

/-- `spv_emit_value_` on an `IntLiteral` -/
def emitIntLiteral (new ty : SpvId) (lit : IntLiteral) : List Word := spvbConstant new ty (literalWords lit)

/-- The label of a case in `emit_match`, for the width of the inspected value. -/
def labelWords (inspecteeWidth : IntSizes) (lit : IntLiteral) : List Word :=
  let value := getIntLiteralValue lit false
  if inspecteeWidth = .intTy64 then [(value &&& 0xFFFFFFFF).setWidth 32, (value >>> 32).setWidth 32]
  else [value.setWidth 32]

/-- The switch of `emit_match`, where each case comes with the block it goes to. -/
def emitMatch (inspectee defaultId : SpvId) (inspecteeWidth : IntSizes) (cases : List (IntLiteral × SpvId)) : List Word :=
  spvbSwitch inspectee defaultId (cases.flatMap fun arm => labelWords inspecteeWidth arm.1 ++ [arm.2])

/-! ## Decoder -/

/-- `parse_spv_instruction_at` on an `OpConstant` of an integer type, on a host with the low byte
first. Nothing is read behind the instruction. -/
def parseConstant (type : IntType) (instruction : List Word) : Option IntLiteral :=
  match type.width, instruction.drop 3 with
  | .intTy64, low :: high :: _ => some ⟨type.width, type.isSigned, high ++ low⟩
  | .intTy64, _ => none
  | _, word :: _ => some ⟨type.width, type.isSigned, word.setWidth 64⟩
  | _, [] => none

/-! ## The format -/

/-- A value as the format has it: sign-extended for signed types and zero-extended for unsigned
ones, and the low word first where there are two. -/
def encoding (type : IntType) (z : Int) : List Word :=
  let bits := BitVec.ofInt type.width.bits z
  if type.width = .intTy64 then [bits.setWidth 32, (bits >>> 32).setWidth 32]
  else [if type.isSigned then bits.signExtend 32 else bits.zeroExtend 32]

/-- The constant and the label are encoded as the format says, the encoding is decoded to the
canonical literal of the value, and what was encoded comes back. -/
structure Faithful (lit : IntLiteral) : Prop where
  constant : ∀ new ty, emitIntLiteral new ty lit = spvbConstant new ty (encoding lit.type lit.denotes)
  label : ∀ inspectee defaultId target, emitMatch inspectee defaultId lit.width [(lit, target)] =
    spvbSwitch inspectee defaultId (encoding lit.type lit.denotes ++ [target])
  decoded : ∀ new ty, parseConstant lit.type (spvbConstant new ty (encoding lit.type lit.denotes)) =
    some (canonicalLiteral lit.type lit.denotes)
  comesBack : ∀ new ty, lit.Canonical → parseConstant lit.type (emitIntLiteral new ty lit) = some lit

/-! ## Values and bits -/

section Bits
variable (lit : IntLiteral)

/-- The stored bits of the value. -/
theorem ofInt_denotes : BitVec.ofInt lit.width.bits lit.denotes = lit.value.setWidth lit.width.bits := by
  apply BitVec.eq_of_toNat_eq
  have pattern : lit.type.pattern lit.denotes = lit.type.pattern lit.value.toNat := by
    rw [IntLiteral.denotes, IntType.pattern_wrap]
  rw [pattern_natCast] at pattern
  rw [BitVec.toNat_ofInt, BitVec.toNat_setWidth]
  have residue : lit.denotes % (2 ^ lit.width.bits : Nat) = ((lit.value.toNat % 2 ^ lit.width.bits : Nat) : Int) := by
    rw [← show lit.type.width = lit.width from rfl, ← pattern]
    push_cast
    rfl
  rw [residue, Int.toNat_natCast]

theorem getIntLiteralValue_eq : getIntLiteralValue lit false = (lit.value.setWidth lit.width.bits).setWidth 64 := by
  apply BitVec.eq_of_toNat_eq
  have read := getIntLiteralValue_unsigned lit
  rw [pattern_natCast] at read
  have small : lit.value.toNat % 2 ^ lit.width.bits < 2 ^ 64 := (Nat.mod_le _ _).trans_lt lit.value.isLt
  rw [BitVec.toNat_setWidth, BitVec.toNat_setWidth, Nat.mod_eq_of_lt small]
  exact_mod_cast read

theorem canonicalLiteral_bits :
    (canonicalLiteral lit.type lit.denotes).value = (lit.value.setWidth lit.width.bits).setWidth 64 := by
  apply BitVec.eq_of_toNat_eq
  have value := canonicalLiteral_value lit.type lit.denotes
  rw [IntLiteral.denotes, IntType.pattern_wrap, ← IntLiteral.denotes, pattern_natCast] at value
  have small : lit.value.toNat % 2 ^ lit.width.bits < 2 ^ 64 := (Nat.mod_le _ _).trans_lt lit.value.isLt
  rw [BitVec.toNat_setWidth, BitVec.toNat_setWidth, Nat.mod_eq_of_lt small]
  exact_mod_cast value

/-- The value is negative when its type is signed and the upper one of its bits is set. -/
theorem denotes_nonneg_iff {lit : IntLiteral} :
    0 ≤ lit.denotes ↔ lit.isSigned = false ∨ (lit.value.setWidth lit.width.bits).msb = false := by
  cases signed : lit.isSigned with
  | false =>
      have unsigned : lit.denotes = lit.type.pattern lit.value.toNat := by
        simp [IntLiteral.denotes, IntType.wrap, IntType.pattern, IntLiteral.type, signed,
          TwosComplement.unsigned_reading_eq_residue]
      simp [unsigned, IntType.pattern_nonneg]
  | true =>
      have read : lit.denotes = (lit.value.setWidth lit.width.bits).toInt := by
        rw [BitVec.toInt_eq_toNat_bmod, BitVec.toNat_setWidth, Int.natCast_mod, Int.emod_bmod]
        simp [IntLiteral.denotes, IntType.wrap, IntLiteral.type, signed, TwosComplement.reading]
      rw [read, BitVec.msb_eq_toInt]
      simp

end Bits

/-! ## Widths of a word or more -/

section Wide
variable {lit : IntLiteral}

theorem mask_setWidth (value : BitVec 64) : (value &&& 0xFFFFFFFF).setWidth 32 = value.setWidth 32 := by
  apply BitVec.eq_of_toNat_eq
  rw [BitVec.toNat_setWidth, BitVec.toNat_setWidth, and_mask_toNat value 0xFFFFFFFF 32 rfl, Nat.mod_mod]

theorem words_append (value : BitVec 64) : (value >>> 32).setWidth 32 ++ value.setWidth 32 = value := by
  apply BitVec.eq_of_toNat_eq
  have small := value.isLt
  rw [BitVec.toNat_append, BitVec.toNat_setWidth, BitVec.toNat_setWidth, BitVec.toNat_ushiftRight,
    Nat.shiftRight_eq_div_pow, ← Nat.shiftLeft_add_eq_or_of_lt (Nat.mod_lt _ (by decide)), Nat.shiftLeft_eq]
  omega

theorem faithful_of_64 (width : lit.width = .intTy64) : Faithful lit := by
  obtain ⟨_, isSigned, value⟩ := lit
  subst width
  have bits : BitVec.ofInt 64 (IntLiteral.denotes ⟨.intTy64, isSigned, value⟩) = value :=
    (ofInt_denotes ⟨.intTy64, isSigned, value⟩).trans (BitVec.setWidth_eq value)
  have canonical : canonicalLiteral ⟨.intTy64, isSigned⟩ (IntLiteral.denotes ⟨.intTy64, isSigned, value⟩) =
      ⟨.intTy64, isSigned, value⟩ := by
    have read := canonicalLiteral_bits ⟨.intTy64, isSigned, value⟩
    have whole : (value.setWidth IntSizes.intTy64.bits).setWidth 64 = value := by
      apply BitVec.eq_of_toNat_eq
      simp [IntSizes.bits, IntSizes.sizeInBytes]
    exact congrArg (IntLiteral.mk .intTy64 isSigned) (read.trans whole)
  have encoded : encoding ⟨.intTy64, isSigned⟩ (IntLiteral.denotes ⟨.intTy64, isSigned, value⟩) =
      [value.setWidth 32, (value >>> 32).setWidth 32] := by
    have unfolded : encoding ⟨.intTy64, isSigned⟩ (IntLiteral.denotes ⟨.intTy64, isSigned, value⟩) =
      [(BitVec.ofInt 64 (IntLiteral.denotes ⟨.intTy64, isSigned, value⟩)).setWidth 32,
        (BitVec.ofInt 64 (IntLiteral.denotes ⟨.intTy64, isSigned, value⟩) >>> 32).setWidth 32] := rfl
    rw [unfolded, bits]
  have words : literalWords ⟨.intTy64, isSigned, value⟩ = [value.setWidth 32, (value >>> 32).setWidth 32] := by
    rw [literalWords, if_pos rfl, mask_setWidth]
  have labels : labelWords .intTy64 ⟨.intTy64, isSigned, value⟩ = [value.setWidth 32, (value >>> 32).setWidth 32] := by
    rw [labelWords, if_pos rfl, getIntLiteralValue, if_neg (by decide)]
    dsimp only
    rw [mask_setWidth]
  have parsed : ∀ new ty, parseConstant ⟨.intTy64, isSigned⟩
      (spvbConstant new ty [value.setWidth 32, (value >>> 32).setWidth 32]) = some ⟨.intTy64, isSigned, value⟩ := by
    intro new ty
    exact congrArg (fun v => some (IntLiteral.mk .intTy64 isSigned v)) (words_append value)
  constructor
  · intro new ty
    rw [emitIntLiteral, words, IntLiteral.type, encoded]
  · intro inspectee defaultId target
    rw [emitMatch, List.flatMap_singleton, labels, IntLiteral.type, encoded]
  · intro new ty
    rw [IntLiteral.type, encoded, canonical]
    exact parsed new ty
  · intro new ty _
    rw [emitIntLiteral, words]
    exact parsed new ty

end Wide

/-! ## Widths of one word -/

section Narrow
variable {lit : IntLiteral}

theorem encoding_narrow (narrow : lit.width ≠ .intTy64) : encoding lit.type lit.denotes =
    [if lit.isSigned then (lit.value.setWidth lit.width.bits).signExtend 32
      else (lit.value.setWidth lit.width.bits).zeroExtend 32] := by
  have unfolded : encoding lit.type lit.denotes =
      [if lit.isSigned then (BitVec.ofInt lit.width.bits lit.denotes).signExtend 32
        else (BitVec.ofInt lit.width.bits lit.denotes).zeroExtend 32] := if_neg narrow
  rw [unfolded, ofInt_denotes]

theorem labelWords_narrow (narrow : lit.width ≠ .intTy64) :
    labelWords lit.width lit = [(lit.value.setWidth lit.width.bits).setWidth 32] := by
  unfold labelWords
  dsimp only
  rw [if_neg narrow, getIntLiteralValue_eq]
  have fits : lit.width.bits ≤ 32 := lit.width.bits_cases.resolve_left narrow
  congr 1
  apply BitVec.eq_of_toNat_eq
  simp only [BitVec.toNat_setWidth]
  have small : lit.value.toNat % 2 ^ lit.width.bits < 2 ^ 64 := (Nat.mod_le _ _).trans_lt lit.value.isLt
  rw [Nat.mod_eq_of_lt small]

theorem parseConstant_narrow (narrow : lit.width ≠ .intTy64) (new ty : SpvId) (word : Word) :
    parseConstant lit.type (spvbConstant new ty [word]) = some ⟨lit.width, lit.isSigned, word.setWidth 64⟩ := by
  obtain ⟨width, isSigned, value⟩ := lit
  cases width with
  | intTy64 => exact absurd rfl narrow
  | intTy8 => rfl
  | intTy16 => rfl
  | intTy32 => rfl

theorem signExtend_eq_setWidth_iff {w : Nat} (bits : BitVec w) (narrow : w < 32) :
    bits.signExtend 32 = bits.setWidth 32 ↔ bits.msb = false := by
  constructor
  · intro same
    by_contra set
    have above : 2 ^ w < 2 ^ 32 := Nat.pow_lt_pow_right (by decide) narrow
    have values := congrArg BitVec.toNat same
    rw [BitVec.toNat_signExtend, if_pos (by simpa using set)] at values
    omega
  · intro clear
    exact BitVec.signExtend_eq_setWidth_of_msb_false clear

/-- For a value that is not negative the two extensions are the same. -/
theorem extension_eq (narrow : lit.width ≠ .intTy64) :
    (if lit.isSigned then (lit.value.setWidth lit.width.bits).signExtend 32
      else (lit.value.setWidth lit.width.bits).zeroExtend 32) = (lit.value.setWidth lit.width.bits).setWidth 32 ↔
      lit.width = .intTy32 ∨ 0 ≤ lit.denotes := by
  rw [denotes_nonneg_iff]
  cases signed : lit.isSigned with
  | false => simp
  | true =>
      rcases lit.width.bits_cases.resolve_left narrow |>.eq_or_lt with full | small
      · have width : lit.width = .intTy32 := by
          cases size : lit.width <;> simp [size, IntSizes.bits, IntSizes.sizeInBytes] at full ⊢
        simp only [if_true, width, true_or, iff_true]
        exact BitVec.signExtend_eq_setWidth_of_le _ full.ge
      · have width : lit.width ≠ .intTy32 := by
          intro width
          rw [width] at small
          exact absurd small (by decide)
        simp only [if_true, width, false_or, Bool.true_eq_false]
        exact signExtend_eq_setWidth_iff _ small

/-- The field of the constant is cut off at a word, not at its width. -/
theorem word_eq (narrow : lit.width ≠ .intTy64) :
    lit.value.setWidth 32 = (lit.value.setWidth lit.width.bits).setWidth 32 ↔
      lit.value.toNat % 2 ^ 32 < 2 ^ lit.width.bits := by
  have fits : lit.width.bits ≤ 32 := lit.width.bits_cases.resolve_left narrow
  have power : 2 ^ lit.width.bits ∣ 2 ^ 32 := pow_dvd_pow 2 fits
  have below : 2 ^ lit.width.bits ≤ 2 ^ 32 := Nat.pow_le_pow_right (by decide) fits
  have reduced : lit.value.toNat % 2 ^ lit.width.bits % 2 ^ 32 = lit.value.toNat % 2 ^ 32 % 2 ^ lit.width.bits := by
    rw [Nat.mod_mod_of_dvd _ power]
    exact Nat.mod_eq_of_lt ((Nat.mod_lt _ (by positivity)).trans_le below)
  rw [← BitVec.toNat_inj]
  simp only [BitVec.toNat_setWidth]
  rw [reduced, eq_comm, Nat.mod_eq_iff_lt (by positivity)]

/-- The words of a literal are those of the format when the field has no bits above its width
below the end of the word, and the value is not negative. -/
theorem faithful_narrow_iff (narrow : lit.width ≠ .intTy64) :
    Faithful lit ↔ lit.value.toNat % 2 ^ 32 < 2 ^ lit.width.bits ∧ (lit.width = .intTy32 ∨ 0 ≤ lit.denotes) := by
  rw [← word_eq narrow, ← extension_eq narrow]
  have words : literalWords lit = [lit.value.setWidth 32] := if_neg narrow
  have parsed : ∀ new ty, parseConstant lit.type (spvbConstant new ty [(lit.value.setWidth lit.width.bits).setWidth 32]) =
      some (canonicalLiteral lit.type lit.denotes) := by
    intro new ty
    rw [parseConstant_narrow narrow]
    refine congrArg (fun value => some (IntLiteral.mk lit.width lit.isSigned value)) ?_
    have fits : lit.width.bits ≤ 32 := lit.width.bits_cases.resolve_left narrow
    refine Eq.trans ?_ (canonicalLiteral_bits lit).symm
    apply BitVec.eq_of_toNat_eq
    have below : 2 ^ lit.width.bits ≤ 2 ^ 32 := Nat.pow_le_pow_right (by decide) fits
    have small : lit.value.toNat % 2 ^ lit.width.bits < 2 ^ 32 := (Nat.mod_lt _ (by positivity)).trans_le below
    simp only [BitVec.toNat_setWidth, Nat.mod_eq_of_lt small]
  constructor
  · intro faithful
    have label := faithful.label 0 0 0
    rw [emitMatch, List.flatMap_singleton, labelWords_narrow narrow, encoding_narrow narrow] at label
    have extension : (if lit.isSigned then (lit.value.setWidth lit.width.bits).signExtend 32
        else (lit.value.setWidth lit.width.bits).zeroExtend 32) = (lit.value.setWidth lit.width.bits).setWidth 32 := by
      exact (List.cons.inj (List.cons.inj (List.cons.inj (List.cons.inj label).2).2).2).1.symm
    have constant := faithful.constant 0 0
    rw [emitIntLiteral, words, encoding_narrow narrow, extension] at constant
    exact ⟨(List.cons.inj (List.cons.inj (List.cons.inj (List.cons.inj constant).2).2).2).1, extension⟩
  · intro holds
    obtain ⟨word, extension⟩ := holds
    constructor
    · intro new ty
      rw [emitIntLiteral, words, encoding_narrow narrow, extension, word]
    · intro inspectee defaultId target
      rw [emitMatch, List.flatMap_singleton, labelWords_narrow narrow, encoding_narrow narrow, extension]
    · intro new ty
      rw [encoding_narrow narrow, extension]
      exact parsed new ty
    · intro new ty canonical
      rw [emitIntLiteral, words, word, parsed]
      exact congrArg some ((canonical_iff lit).mp canonical).symm

end Narrow

end Shady.Spirv
