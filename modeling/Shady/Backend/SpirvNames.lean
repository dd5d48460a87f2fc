import Shady.Backend.SpirvLiterals
import Shady.Frontend.SpirvFunctions

/-!
# Names in SPIR-V

The section of debug names that `src/backend/spirv/spirv_builder.c` writes, and what the parser of
`src/frontend/spirv/s2s.c` takes from it.
-/

set_option autoImplicit false

namespace Shady.Spirv

/-! ## The builder -/

/-- The bytes of a string up to the zero at its end. -/
structure CString where
  bytes : List WordStream.Byte
  noZero : 0 ∉ bytes

/-- `div_roundup` -/
def divRoundup (a b : Int) : Int := if a.tmod b = 0 then a.tdiv b else a.tdiv b + 1

/-- The loop of `spvb_literal_name` -/
def spvbLiteralName (i : Nat) (cword : Word) : List WordStream.Byte → List Word
  | [] => [cword]
  | c :: str =>
      let cword := cword ||| (c.setWidth 32 <<< (i * 8))
      if i + 1 = 4 then cword :: spvbLiteralName 0 0 str else spvbLiteralName (i + 1) cword str

def opName : SpvOp := 5

/-- `spvb_name`, in a file that has given out the ids below `bound`. -/
def spvbName (bound id : SpvId) (str : CString) : Option (List Word) :=
  -- the length becomes an `int`
  let opsSize := 2 + divRoundup (BitVec.ofNat 32 (str.bytes.length + 1)).toInt 4
  if id < bound ∧ id ≠ 0 then
    some (op opName opsSize.toNat :: id :: spvbLiteralName 0 0 str.bytes)
  else none

/-- The section `debug_names` after a call of `spvb_name` for each name. -/
def debugNames (bound : SpvId) : List (SpvId × CString) → Option (List Word)
  | [] => some []
  | (id, str) :: named => do return (← spvbName bound id str) ++ (← debugNames bound named)

/-! ## The parser -/

/-- The size that the first word of an instruction tells. -/
def size (word : Word) : Nat := ((word >>> 16) &&& 0xFFFF).toNat

/-- Of the instructions, only names are told apart. -/
def instructionOf (frame : Word × List Word) : S2s.Instruction :=
  ⟨if frame.1 &&& 0xFFFF = opName then .opName else .other, frame.2⟩

/-- The instructions that the cursor of `shd_parse_spirv` stops at. -/
def readInstructions (words : List Word) : Option (List S2s.Instruction) :=
  (WordStream.frames size words).map (List.map instructionOf)

/-! ## Words -/

theorem word_ofBytes (b0 b1 b2 b3 : WordStream.Byte) :
    b0.setWidth 32 ||| b1.setWidth 32 <<< 8 ||| b2.setWidth 32 <<< 16 ||| b3.setWidth 32 <<< 24 =
      WordStream.ofBytes b0 b1 b2 b3 := by
  apply BitVec.eq_of_getLsbD_eq
  intro i _
  simp only [WordStream.ofBytes, BitVec.getLsbD_or, BitVec.getLsbD_shiftLeft, BitVec.getLsbD_setWidth,
    BitVec.getLsbD_append]
  grind

theorem spvbLiteralName_eq (str : List WordStream.Byte) :
    spvbLiteralName 0 0 str = WordStream.pack str := by
  induction str using WordStream.pack.induct with
  | case1 => rfl
  | case2 b0 => simp [spvbLiteralName, WordStream.pack, ← word_ofBytes]
  | case3 b0 b1 => simp [spvbLiteralName, WordStream.pack, ← word_ofBytes]
  | case4 b0 b1 b2 => simp [spvbLiteralName, WordStream.pack, ← word_ofBytes]
  | case5 b0 b1 b2 b3 rest ih => simpa [spvbLiteralName, WordStream.pack, ← word_ofBytes] using ih

theorem mask_bit (i : Nat) : (0xFFFF : Word).getLsbD i = decide (i < 16) ∧
    (0xFFFF0000 : Word).getLsbD i = decide (16 ≤ i ∧ i < 32) := by
  by_cases inside : i < 32
  · have each : ∀ j < 32, (0xFFFF : Word).getLsbD j = decide (j < 16) ∧
        (0xFFFF0000 : Word).getLsbD j = decide (16 ≤ j ∧ j < 32) := by decide
    exact each i inside
  · have outside := Nat.le_of_not_lt inside
    simp only [BitVec.getLsbD_of_ge _ _ outside]
    grind

theorem size_op (opcode : SpvOp) {n : Nat} (small : n < 2 ^ 16) : size (op opcode n) = n := by
  have bits : (op opcode n >>> 16) &&& 0xFFFF = BitVec.ofNat 32 n := by
    apply BitVec.eq_of_getLsbD_eq
    intro i inside
    have high : ∀ j, 16 ≤ j → n.testBit j = false := fun j far =>
      Nat.testBit_lt_two_pow (small.trans_le (Nat.pow_le_pow_right (by decide) far))
    simp only [op, BitVec.getLsbD_and, BitVec.getLsbD_ushiftRight, BitVec.getLsbD_or, mask_bit,
      BitVec.getLsbD_shiftLeft, BitVec.getLsbD_ofNat]
    grind
  rw [size, bits, BitVec.toNat_ofNat]
  exact Nat.mod_eq_of_lt (small.trans (by decide))

theorem opcode_op (n : Nat) : op opName n &&& 0xFFFF = opName := by
  apply BitVec.eq_of_getLsbD_eq
  intro i inside
  have name : ∀ j < 32, opName.getLsbD j = true → j < 16 := by decide
  simp only [op, BitVec.getLsbD_and, BitVec.getLsbD_or, mask_bit]
  grind

theorem divRoundup_length {n : Nat} (small : n < 4 * (2 ^ 16 - 3)) :
    (2 + divRoundup (BitVec.ofNat 32 (n + 1)).toInt 4).toNat = n / 4 + 3 := by
  have value : (BitVec.ofNat 32 (n + 1)).toInt = ((n + 1 : Nat) : Int) := by
    have whole : (BitVec.ofNat 32 (n + 1)).toNat = n + 1 := by
      rw [BitVec.toNat_ofNat]
      exact Nat.mod_eq_of_lt (by omega)
    rw [BitVec.toInt_eq_toNat_of_lt (by omega), whole]
  have positive : (0 : Int) ≤ ((n + 1 : Nat) : Int) := Int.natCast_nonneg _
  rw [value, divRoundup, Int.tmod_eq_emod_of_nonneg positive, Int.tdiv_eq_ediv_of_nonneg positive]
  split
  · omega
  · omega

/-! ## Round trip -/

section Names
variable {bound : SpvId}

/-- The words of `spvb_name`, the first one apart. -/
def nameFrame (name : SpvId × CString) : Word × List Word :=
  (op opName (name.2.bytes.length / 4 + 3), name.1 :: WordStream.pack name.2.bytes)

/-- The decoration that the parser keeps for a name. -/
def nameDecoration (name : CString) : S2s.SpvDeco := ⟨.shdName, -1, .str name.bytes⟩

/-- A name is short enough for the sixteen bits of the size. -/
def Short (name : SpvId × CString) : Prop := name.2.bytes.length < 4 * (2 ^ 16 - 3)

instance (name : SpvId × CString) : Decidable (Short name) := inferInstanceAs (Decidable (_ < _))

theorem spvbName_eq {name : SpvId × CString} (short : Short name) {words : List Word}
    (built : spvbName bound name.1 name.2 = some words) :
    words = (nameFrame name).1 :: (nameFrame name).2 := by
  simp only [spvbName, divRoundup_length short, spvbLiteralName_eq] at built
  split at built
  · exact (Option.some.inj built).symm
  · cases built

theorem nameFrame_size {name : SpvId × CString} (short : Short name) :
    size (nameFrame name).1 = (nameFrame name).2.length + 1 := by
  unfold Short at short
  rw [nameFrame, size_op _ (by omega), List.length_cons, WordStream.length_pack]

theorem debugNames_eq {named : List (SpvId × CString)} (short : ∀ name ∈ named, Short name) :
    ∀ {words : List Word}, debugNames bound named = some words →
      words = WordStream.join (named.map nameFrame) := by
  induction named with
  | nil =>
      intro words built
      cases built
      rfl
  | cons name named ih =>
      intro words built
      simp only [debugNames, Option.pure_def, Option.bind_eq_bind, Option.bind_eq_some_iff] at built
      obtain ⟨first, head, others, rest, same⟩ := built
      cases same
      rw [spvbName_eq (short name List.mem_cons_self) head,
        ih (fun n held => short n (List.mem_cons_of_mem _ held)) rest]
      rfl

theorem readInstructions_join {named : List (SpvId × CString)} (short : ∀ name ∈ named, Short name) :
    readInstructions (WordStream.join (named.map nameFrame)) =
      some (named.map fun name => ⟨.opName, (nameFrame name).2⟩) := by
  have framed : WordStream.frames size (WordStream.join (named.map nameFrame)) =
      some (named.map nameFrame) := by
    apply WordStream.frames_join
    intro frame held
    obtain ⟨name, among, same⟩ := List.mem_map.mp held
    rw [← same]
    exact nameFrame_size (short name among)
  rw [readInstructions, framed, Option.map_some, List.map_map]
  exact congrArg some (List.map_congr_left fun name _ =>
    congrArg (S2s.Instruction.mk · _) (if_pos (opcode_op _)))

/-- `OpName` is read as the name that was written. -/
theorem parseOpName_eq (name : SpvId × CString) (st : S2s.SpvParser) :
    (S2s.parseOpName ⟨.opName, (nameFrame name).2⟩).run st =
      (S2s.addDecoration name.1.toNat (nameDecoration name.2)).run st := by
  have text : S2s.decodeSpvStringLiteral (WordStream.pack name.2.bytes) = name.2.bytes :=
    WordStream.takeWhile_pack name.2.noZero
  have words : (⟨.opName, (nameFrame name).2⟩ : S2s.Instruction).wordsFrom 2 =
      WordStream.pack name.2.bytes := rfl
  have target : (⟨.opName, (nameFrame name).2⟩ : S2s.Instruction).id? 1 = some name.1.toNat := rfl
  rw [S2s.parseOpName, target, words, text]
  rfl

theorem parseNames_run (named : List (SpvId × CString)) : ∀ st : S2s.SpvParser,
    ((named.map fun name => (⟨.opName, (nameFrame name).2⟩ : S2s.Instruction)).forM
      S2s.parseOpName).run st = .ok ((), { st with
        decorations := fun id => st.decorations id ++
          (named.filter fun name => name.1.toNat = id).map fun name => nameDecoration name.2 }) := by
  induction named with
  | nil =>
      intro st
      simp only [List.map_nil, List.filter_nil, List.append_nil]
      rfl
  | cons name named ih =>
      intro st
      have first := parseOpName_eq name st
      rw [S2s.addDecoration, Stateful.run_modify] at first
      refine (Stateful.run_bind_of_ok first).trans ((ih _).trans ?_)
      congr 4
      funext id
      by_cases here : name.1.toNat = id
      · simp [here]
      · simp [here, Ne.symm here]

/-- The names that are written are read again, each for its id and in the order written. -/
theorem names_roundTrip {named : List (SpvId × CString)} (short : ∀ name ∈ named, Short name)
    {words : List Word} (built : debugNames bound named = some words) (st : S2s.SpvParser) :
    ∃ instructions, readInstructions words = some instructions ∧
      (instructions.forM S2s.parseOpName).run st = .ok ((), { st with
        decorations := fun id => st.decorations id ++
          (named.filter fun name => name.1.toNat = id).map fun name => nameDecoration name.2 }) := by
  rw [debugNames_eq short built]
  exact ⟨_, readInstructions_join short, parseNames_run named st⟩

end Names

/-- Two names for one id, one of them empty. -/
def twoAndEmpty : List (SpvId × CString) := [(3, ⟨[], by decide⟩), (3, ⟨[105], by decide⟩)]

theorem twoAndEmpty_read : ∃ words instructions st, debugNames 9 twoAndEmpty = some words ∧
    readInstructions words = some instructions ∧
    (instructions.forM S2s.parseOpName).run (.initial (fun _ => .nothing) []) = .ok ((), st) ∧
    st.decorations 3 = [⟨.shdName, -1, .str []⟩, ⟨.shdName, -1, .str [105]⟩] := by
  have short : ∀ name ∈ twoAndEmpty, Short name := by decide
  have built : debugNames 9 twoAndEmpty = some _ := rfl
  obtain ⟨instructions, read, ran⟩ := names_roundTrip short built (.initial (fun _ => .nothing) [])
  exact ⟨_, instructions, _, built, read, ran, rfl⟩

end Shady.Spirv
