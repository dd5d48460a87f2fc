import Mathlib.Algebra.GroupWithZero.Nat
import Shady.Common.Arena
import Mathlib.Algebra.Order.BigOperators.Group.List
import Mathlib.Algebra.Order.Group.Nat
import Mathlib.Data.List.Perm.Basic
import Mathlib.Data.List.Pairwise
import Mathlib.Tactic.ByContra

/-!
# Allocations never overlap

The blocks that `malloc` gave are apart; what is handed out of them lies in front of what is still
available of the last one. Sizes that cannot be rounded up in 64 bits are rounded to nothing.
-/

set_option autoImplicit false

namespace Shady.Arenas

open Stateful

theorem Region.Apart.symm {r s : Region} (apart : r.Apart s) : s.Apart r := Or.symm apart

theorem Region.Apart.within {r s inner outer : Region} (apart : r.Apart s) (first : inner.Within r)
    (second : outer.Within s) : inner.Apart outer := by
  obtain ⟨low, high⟩ := first
  obtain ⟨low', high'⟩ := second
  unfold Region.Apart at apart ⊢
  omega

theorem Region.Within.refl (r : Region) : r.Within r := ⟨Nat.le_refl _, Nat.le_refl _⟩

/-! ## Sizes -/

theorem roundUp_of_le {size : Nat} (small : size ≤ 2 ^ 64 - 32) :
    size ≤ roundUp size maxAlignSize ∧ 32 ∣ roundUp size maxAlignSize ∧
      (roundUp size maxAlignSize = 0 ↔ size = 0) := by
  unfold roundUp maxAlignSize
  omega

theorem roundUp_of_gt {size : Nat} (isSize : size < 2 ^ 64) (large : ¬ size ≤ 2 ^ 64 - 32) :
    roundUp size maxAlignSize = 0 := by
  unfold roundUp maxAlignSize
  omega

/-! ## The invariant -/

/-- The storage in use lies apart in the blocks. -/
structure Blocks (st : State) (used : List Region) : Prop where
  room : st.arena.nblocks ≤ st.arena.maxblocks
  positive : 0 < st.arena.maxblocks
  blocks : st.arena.blocks.Perm (st.live.map Region.start)
  apart : st.live.Pairwise Region.Apart
  sized : ∀ r ∈ st.live, 0 < r.size
  aligned : ∀ r ∈ st.live, 16 ∣ r.start
  usedApart : used.Pairwise Region.Apart
  usedWithin : ∀ r ∈ used, ∃ block ∈ st.live, r.Within block

/-- What is available is the end of the last block, behind the storage in use. -/
structure Available (st : State) (used : List Region) : Prop where
  le : st.arena.available ≤ allocSize
  rounded : 32 ∣ st.arena.available
  last : 0 < st.arena.available → ∃ front block, st.arena.blocks = front ++ [block] ∧
    ⟨block, allocSize⟩ ∈ st.live ∧
    ∀ r ∈ used, r.Apart ⟨block + (allocSize - st.arena.available), st.arena.available⟩

theorem Blocks.perm {st : State} {used used' : List Region} (blocks : Blocks st used)
    (same : used.Perm used') : Blocks st used' :=
  { blocks with
    usedApart := (same.pairwise_iff Region.Apart.symm).mp blocks.usedApart
    usedWithin := fun r mem => blocks.usedWithin r (same.mem_iff.mpr mem) }

/-- Blocks start at different addresses. -/
theorem Blocks.nodup {st : State} {used : List Region} (blocks : Blocks st used) :
    st.arena.blocks.Nodup := by
  rw [blocks.blocks.nodup_iff, List.Nodup, List.pairwise_map]
  apply blocks.apart.imp_of_mem
  intro r s memR memS apart same
  have sizedR := blocks.sized r memR
  have sizedS := blocks.sized s memS
  unfold Region.Apart at apart
  omega

/-! ## Steps -/

/-- The only way to stop. -/
abbrev Allocates {α : Type} (x : M α) (st : State) (Q : α → State → Prop) : Prop :=
  Yields (.assertion "allocated") x st Q

theorem check_yields {condition : Bool} {text : String} {st : State} (holds : condition = true) :
    Allocates (check condition text) st fun _ st' => st = st' := by
  simp only [check, holds, if_true]
  exact Yields.pure rfl

theorem get_bind_run {α : Type} (next : State → M α) (st : State) :
    ((get : M State) >>= next).run st = (next st).run st :=
  rfl

theorem allocate_yields (m : Malloc) (size : Nat) (st : State) :
    Allocates (allocate m size) st fun address st' =>
      m.malloc st.live size = some address ∧ st' = { st with live := ⟨address, size⟩ :: st.live } := by
  cases found : m.malloc st.live size with
  | none =>
      left
      rw [allocate, get_bind_run, found]
      rfl
  | some address =>
      right
      refine ⟨address, { st with live := ⟨address, size⟩ :: st.live }, ?_, rfl, rfl⟩
      rw [allocate, get_bind_run, found]
      rfl

/-- The storage for the pointers is doubled when it is full. -/
theorem grownRoom {count space : Nat} (room : count ≤ space) (positive : 0 < space) :
    count + 1 ≤ if count = space then space * 2 else space := by
  split
  · omega
  · omega

theorem grownPositive {count space : Nat} (positive : 0 < space) :
    0 < if count = space then space * 2 else space := by
  split
  · omega
  · omega

/-- What a new block leaves: it is the last one, and apart from the others. -/
structure Added (st st' : State) (address size : Nat) : Prop where
  last : st'.arena.blocks = st.arena.blocks ++ [address]
  available : st'.arena.available = st.arena.available
  live : st'.live = ⟨address, size⟩ :: st.live
  aligned : 16 ∣ address
  apart : ∀ r ∈ st.live, Region.Apart ⟨address, size⟩ r

theorem newBlock_yields (m : Malloc) {size : Nat} (positive : 0 < size) {st : State}
    {used : List Region} (blocks : Blocks st used) :
    Allocates (newBlock m size) st fun address st' =>
      Blocks st' used ∧ Added st st' address size := by
  apply Yields.bind (Yields.get st)
  rintro _ _ ⟨rfl, rfl⟩
  apply Yields.bind (check_yields (by simpa using blocks.room))
  rintro _ _ rfl
  apply Yields.bind (allocate_yields m size _)
  rintro address _ ⟨isNew, rfl⟩
  apply Yields.bind (Yields.modify _ _)
  rintro _ _ rfl
  apply Yields.pure
  have apart := m.apart isNew
  have room := blocks.room
  have grows := blocks.positive
  constructor
  · exact
      { room := by
          simp only [Arena.nblocks, List.length_append, List.length_singleton]
          exact grownRoom room grows
        positive := grownPositive grows
        blocks := by
          apply (List.perm_append_singleton address _).trans
          exact blocks.blocks.cons address
        apart := List.pairwise_cons.mpr ⟨apart, blocks.apart⟩
        sized := List.forall_mem_cons.mpr ⟨positive, blocks.sized⟩
        aligned := List.forall_mem_cons.mpr ⟨m.aligned isNew, blocks.aligned⟩
        usedApart := blocks.usedApart
        usedWithin := fun r mem => by
          obtain ⟨block, isLive, within⟩ := blocks.usedWithin r mem
          exact ⟨block, List.mem_cons_of_mem _ isLive, within⟩ }
  · exact ⟨rfl, rfl, rfl, m.aligned isNew, apart⟩

/-- A new block is apart from all storage in use. -/
theorem Added.apart_used {st st' : State} {address size : Nat} {used : List Region}
    (added : Added st st' address size) (blocks : Blocks st used) :
    ∀ r ∈ used, Region.Apart ⟨address, size⟩ r := by
  intro r mem
  obtain ⟨block, isLive, within⟩ := blocks.usedWithin r mem
  exact (added.apart block isLive).within (Region.Within.refl _) within

theorem clear_yields (start size : Nat) (st : State) :
    Allocates (clear start size) st fun _ st' => st'.arena = st.arena ∧ st'.live = st.live ∧
      ∀ k < size, st'.memory (start + k) = 0 := by
  apply (Yields.modify _ st).mono
  rintro _ _ rfl
  refine ⟨rfl, rfl, ?_⟩
  intro k inside
  exact if_pos ⟨by omega, by omega⟩

theorem Blocks.sameArena {st st' : State} {used : List Region} (blocks : Blocks st used)
    (room : st'.arena.maxblocks = st.arena.maxblocks) (same : st'.arena.blocks.Perm st.arena.blocks)
    (live : st'.live = st.live) : Blocks st' used where
  room := by
    rw [room, Arena.nblocks, same.length_eq]
    exact blocks.room
  positive := by
    rw [room]
    exact blocks.positive
  blocks := by
    rw [live]
    exact same.trans blocks.blocks
  apart := by
    rw [live]
    exact blocks.apart
  sized := by
    rw [live]
    exact blocks.sized
  aligned := by
    rw [live]
    exact blocks.aligned
  usedApart := blocks.usedApart
  usedWithin := by
    rw [live]
    exact blocks.usedWithin

/-- Storage that is handed out of a block. -/
theorem Blocks.use {st : State} {used : List Region} (blocks : Blocks st used) {r : Region}
    (within : ∃ block ∈ st.live, r.Within block) (apart : ∀ s ∈ used, r.Apart s) :
    Blocks st (r :: used) :=
  { blocks with
    usedApart := List.pairwise_cons.mpr ⟨apart, blocks.usedApart⟩
    usedWithin := List.forall_mem_cons.mpr ⟨within, blocks.usedWithin⟩ }

/-! ### Large requests -/

theorem swapLast_append (front : List Nat) (a b : Nat) :
    swapLast (front ++ [a] ++ [b]) = front ++ [b] ++ [a] := by
  simp [swapLast]

theorem swapLast_perm (blocks : List Nat) : (swapLast blocks).Perm blocks := by
  unfold swapLast
  split
  · next last previous front shape =>
      have whole : blocks = front.reverse ++ [previous, last] := by
        rw [← blocks.reverse_reverse, shape]
        simp
      rw [whole]
      exact List.Perm.append_left _ (List.Perm.swap _ _ _)
  · exact List.Perm.refl _

/-- A request that is larger than a block gets one of its own, behind which the last one stays. -/
theorem large_yields (m : Malloc) {size : Nat} (positive : 0 < size) {st : State}
    {used : List Region} (blocks : Blocks st used) (available : Available st used) :
    Allocates (do
        let allocated ← newBlock m size
        clear allocated size
        modify fun st => { st with arena := { st.arena with blocks := swapLast st.arena.blocks } }
        return some allocated : M (Option Nat)) st
      fun pointer st' => ∃ address, pointer = some address ∧ 16 ∣ address ∧
        Blocks st' (⟨address, size⟩ :: used) ∧ Available st' (⟨address, size⟩ :: used) ∧
        ∀ k < size, st'.memory (address + k) = 0 := by
  apply Yields.bind (newBlock_yields m positive blocks)
  rintro address st₁ ⟨blocks₁, added⟩
  apply Yields.bind (clear_yields address size st₁)
  rintro _ st₂ ⟨sameArena, sameLive, zeros⟩
  apply Yields.bind (Yields.modify _ _)
  rintro _ st₃ rfl
  apply Yields.pure
  have blocks₂ := blocks₁.use
    ⟨⟨address, size⟩, by rw [added.live]; exact List.mem_cons_self, Region.Within.refl _⟩
    (added.apart_used blocks)
  refine ⟨address, rfl, added.aligned, ?_, ?_, zeros⟩
  · apply Blocks.sameArena blocks₂
    · change st₂.arena.maxblocks = _
      rw [sameArena]
    · rw [← sameArena]
      exact swapLast_perm _
    · exact sameLive
  · have sameAvailable : st₂.arena.available = st.arena.available := by
      rw [sameArena, added.available]
    constructor
    · exact Nat.le_trans (Nat.le_of_eq sameAvailable) available.le
    · exact sameAvailable ▸ available.rounded
    · intro left
      simp only [sameAvailable] at left ⊢
      obtain ⟨front, block, isLast, isLive, behind⟩ := available.last left
      refine ⟨front ++ [address], block, ?_, ?_, ?_⟩
      · rw [sameArena, added.last, isLast, swapLast_append]
      · rw [sameLive, added.live]
        exact List.mem_cons_of_mem _ isLive
      · intro r mem
        cases mem with
        | head =>
            have le := available.le
            apply (added.apart _ isLive).within (Region.Within.refl _)
            refine ⟨Nat.le_add_right _ _, ?_⟩
            change block + (allocSize - st.arena.available) + st.arena.available ≤ block + allocSize
            omega
        | tail _ inUsed => exact behind r inUsed

/-! ### Small requests -/

/-- The last block is replaced where it has too little left. -/
theorem refill_yields (m : Malloc) (size : Nat) {st : State} (small : size ≤ allocSize)
    {used : List Region} (blocks : Blocks st used) (available : Available st used) :
    Allocates (refill m size) st
      fun _ st' => Blocks st' used ∧ Available st' used ∧ size ≤ st'.arena.available := by
  apply Yields.bind (Yields.get st)
  rintro _ _ ⟨rfl, rfl⟩
  by_cases less : st.arena.available < size
  · rw [if_pos less]
    apply Yields.bind (newBlock_yields m (by decide) blocks)
    rintro address st₁ ⟨blocks₁, added⟩
    apply (Yields.modify _ st₁).mono
    rintro _ _ rfl
    refine ⟨blocks₁.sameArena rfl (List.Perm.refl _) rfl, ?_, small⟩
    constructor
    · exact Nat.le_refl _
    · exact ⟨32768, rfl⟩
    · intro _
      refine ⟨st.arena.blocks, address, added.last, ?_, ?_⟩
      · change _ ∈ st₁.live
        rw [added.live]
        exact List.mem_cons_self
      · intro r mem
        simpa using (added.apart_used blocks r mem).symm
  · rw [if_neg less]
    exact Yields.pure ⟨blocks, available, by omega⟩

theorem takeAvailable_yields {size : Nat} (positive : 0 < size) (rounded : 32 ∣ size) {st : State}
    {used : List Region} (blocks : Blocks st used) (available : Available st used)
    (enough : size ≤ st.arena.available) :
    Allocates (takeAvailable size) st fun address st' => 16 ∣ address ∧
      Blocks st' (⟨address, size⟩ :: used) ∧ Available st' (⟨address, size⟩ :: used) ∧
      ∀ k < size, st'.memory (address + k) = 0 := by
  have le := available.le
  have roundedLeft := available.rounded
  obtain ⟨front, block, isLast, isLive, behind⟩ := available.last (by omega)
  have last : st.arena.blocks.getLastD 0 = block := by
    rw [isLast, List.getLastD_concat]
  apply Yields.bind (Yields.get st)
  rintro _ _ ⟨rfl, rfl⟩
  apply Yields.bind (check_yields (by simpa using enough))
  rintro _ _ rfl
  rw [last]
  apply Yields.bind (clear_yields _ size _)
  rintro _ st₂ ⟨sameArena, sameLive, zeros⟩
  apply Yields.bind (Yields.modify _ _)
  rintro _ _ rfl
  apply Yields.pure
  have within : Region.Within ⟨block + (allocSize - st.arena.available), size⟩
      ⟨block + (allocSize - st.arena.available), st.arena.available⟩ :=
    ⟨Nat.le_refl _, Nat.add_le_add_left enough _⟩
  have inBlock : Region.Within ⟨block + (allocSize - st.arena.available), size⟩
      ⟨block, allocSize⟩ := by
    refine ⟨Nat.le_add_right _ _, ?_⟩
    change block + (allocSize - st.arena.available) + size ≤ block + allocSize
    omega
  have left : allocSize - (st.arena.available - size) = allocSize - st.arena.available + size := by
    omega
  refine ⟨?_, ?_, ?_, zeros⟩
  · have aligned := blocks.aligned _ isLive
    change 16 ∣ block at aligned
    have whole : allocSize = 1048576 := rfl
    omega
  · have blocks₂ := blocks.use ⟨_, isLive, inBlock⟩ fun s mem =>
      (behind s mem).symm.within within (Region.Within.refl _)
    apply Blocks.sameArena blocks₂
    · change st₂.arena.maxblocks = _
      rw [sameArena]
    · change st₂.arena.blocks.Perm _
      rw [sameArena]
    · exact sameLive
  · constructor
    · change st₂.arena.available - size ≤ allocSize
      rw [sameArena]
      omega
    · change 32 ∣ st₂.arena.available - size
      rw [sameArena]
      omega
    · intro _
      refine ⟨front, block, ?_, ?_, ?_⟩
      · change st₂.arena.blocks = _
        rw [sameArena, isLast]
      · change _ ∈ st₂.live
        rw [sameLive]
        exact isLive
      · change ∀ r : Region, r ∈ _ → r.Apart ⟨block + (allocSize - (st₂.arena.available - size)),
          st₂.arena.available - size⟩
        rw [sameArena, left, ← Nat.add_assoc]
        intro r mem
        cases mem with
        | head => exact .inl (Nat.le_refl _)
        | tail _ inUsed =>
            apply (behind r inUsed).within (Region.Within.refl _)
            refine ⟨Nat.le_add_right _ _, ?_⟩
            change block + (allocSize - st.arena.available) + size + (st.arena.available - size) ≤
              block + (allocSize - st.arena.available) + st.arena.available
            omega

/-! ### All requests -/

/-- What a request of a size leaves. -/
structure Serves (st : State) (used : List Region) (size : Nat) (pointer : Option Nat) : Prop where
  null : roundUp size maxAlignSize = 0 → pointer = none
  storage : roundUp size maxAlignSize ≠ 0 → ∃ address, pointer = some address ∧ 16 ∣ address ∧
    ∀ k < roundUp size maxAlignSize, st.memory (address + k) = 0
  blocks : Blocks st
    ((pointer.map fun address => ⟨address, roundUp size maxAlignSize⟩).toList ++ used)
  available :
    Available st
      ((pointer.map fun address => ⟨address, roundUp size maxAlignSize⟩).toList ++ used)

theorem shdArenaAlloc_yields (m : Malloc) (size : Nat) {st : State} {used : List Region}
    (blocks : Blocks st used) (available : Available st used) :
    Allocates (shdArenaAlloc m size) st fun pointer st' => Serves st' used size pointer := by
  have rounded : 32 ∣ roundUp size maxAlignSize := by
    unfold roundUp maxAlignSize
    omega
  unfold shdArenaAlloc
  by_cases none : roundUp size maxAlignSize = 0
  · simp only [none, if_true]
    exact Yields.pure ⟨fun _ => rfl, fun some => absurd none some, blocks, available⟩
  · have positive : 0 < roundUp size maxAlignSize := Nat.pos_of_ne_zero none
    simp only [none, if_false]
    by_cases large : allocSize < roundUp size maxAlignSize
    · rw [if_pos large]
      apply (large_yields m positive blocks available).mono
      rintro _ st' ⟨address, rfl, aligned, blocks', available', zeros⟩
      exact ⟨fun zero => absurd zero none, fun _ => ⟨address, rfl, aligned, zeros⟩, blocks', available'⟩
    · rw [if_neg large]
      apply Yields.bind (refill_yields m _ (by omega) blocks available)
      rintro _ st₁ ⟨blocks₁, available₁, enough⟩
      apply Yields.bind (takeAvailable_yields positive rounded blocks₁ available₁ enough)
      rintro address st₂ ⟨aligned, blocks₂, available₂, zeros⟩
      exact Yields.pure ⟨fun zero => absurd zero none, fun _ => ⟨address, rfl, aligned, zeros⟩, blocks₂,
        available₂⟩

/-! ## Sequences of requests -/

/-- The storage that a request got, rounded up. -/
def Result.used (result : Result) : Option Region :=
  result.pointer.map fun address => ⟨address, roundUp result.size maxAlignSize⟩

theorem serve_yields (m : Malloc) (call : Call) {st : State} {used : List Region}
    (blocks : Blocks st used) (available : Available st used) :
    Allocates (serve m call) st fun result st' => result.size = call.size.toNat ∧
      (roundUp result.size maxAlignSize = 0 → result.pointer = none) ∧
      (roundUp result.size maxAlignSize ≠ 0 → ∃ address, result.pointer = some address ∧
        16 ∣ address ∧ ∀ k < roundUp result.size maxAlignSize, result.after (address + k) = 0) ∧
      Blocks st' (result.used.toList ++ used) ∧ Available st' (result.used.toList ++ used) := by
  apply Yields.bind (Yields.modify _ st)
  rintro _ _ rfl
  have blocks' : Blocks { st with memory := call.before } used := { blocks with }
  have available' : Available { st with memory := call.before } used := { available with }
  apply Yields.bind (shdArenaAlloc_yields m call.size.toNat blocks' available')
  intro pointer st₁ serves
  apply Yields.bind (Yields.get st₁)
  rintro _ _ ⟨rfl, rfl⟩
  exact Yields.pure ⟨rfl, serves.null, serves.storage, serves.blocks, serves.available⟩

/-- What holds of the results of a run. -/
structure Served (st : State) (used : List Region) (calls : List Call) (results : List Result) :
    Prop where
  sizes : results.map Result.size = calls.map fun call => call.size.toNat
  null : ∀ result ∈ results, roundUp result.size maxAlignSize = 0 → result.pointer = none
  storage : ∀ result ∈ results, roundUp result.size maxAlignSize ≠ 0 →
    ∃ address, result.pointer = some address ∧ 16 ∣ address ∧
      ∀ k < roundUp result.size maxAlignSize, result.after (address + k) = 0
  blocks : Blocks st (results.filterMap Result.used ++ used)

theorem serveAll_yields (m : Malloc) {calls : List Call} :
    ∀ {st : State} {used : List Region}, Blocks st used → Available st used →
      Allocates (serveAll m calls) st fun results st' => Served st' used calls results := by
  induction calls with
  | nil =>
      intro st used blocks _
      exact Yields.pure ⟨rfl, fun _ mem => (nomatch mem), fun _ mem => (nomatch mem), blocks⟩
  | cons call rest ih =>
      intro st used blocks available
      unfold serveAll
      rw [List.mapM_cons]
      apply Yields.bind (serve_yields m call blocks available)
      rintro result st₁ ⟨size, null, storage, blocks₁, available₁⟩
      apply Yields.bind (ih blocks₁ available₁)
      intro results st₂ served
      apply Yields.pure
      have order : (results.filterMap Result.used ++ (result.used.toList ++ used)).Perm
          ((result :: results).filterMap Result.used ++ used) := by
        rw [← List.append_assoc, List.filterMap_cons]
        apply List.Perm.append_right
        cases result.used with
        | none => rw [Option.toList_none, List.append_nil]
        | some r => exact List.perm_append_singleton r _
      exact
        { sizes := by rw [List.map_cons, List.map_cons, size, served.sizes]
          null := List.forall_mem_cons.mpr ⟨null, served.null⟩
          storage := List.forall_mem_cons.mpr ⟨storage, served.storage⟩
          blocks := served.blocks.perm order }

/-- Sizes that can be rounded up are provided for. -/
theorem Served.provides {st : State} {calls : List Call} {results : List Result}
    (served : Served st [] calls results) (small : ∀ result ∈ results, result.size ≤ 2 ^ 64 - 32) :
    Provides st results := by
  have blocks := served.blocks
  rw [List.append_nil] at blocks
  have inUsed : ∀ result ∈ results, ∀ r, result.region = some r →
      ∃ s, result.used = some s ∧ r.Within s := by
    intro result mem r isRegion
    obtain ⟨address, pointer, rfl⟩ := Option.map_eq_some_iff.mp isRegion
    refine ⟨⟨address, roundUp result.size maxAlignSize⟩, by rw [Result.used, pointer]; rfl,
      Nat.le_refl _, ?_⟩
    have le := (roundUp_of_le (small result mem)).1
    change address + result.size ≤ address + roundUp result.size maxAlignSize
    omega
  constructor
  · intro result mem positive
    obtain ⟨le, -, zero⟩ := roundUp_of_le (small result mem)
    obtain ⟨address, pointer, aligned, zeros⟩ :=
      served.storage result mem fun none => by omega
    exact ⟨address, pointer, aligned, fun k inside => zeros k (by omega)⟩
  · rw [List.pairwise_filterMap]
    apply (List.pairwise_filterMap.mp blocks.usedApart).imp_of_mem
    intro first second memFirst memSecond apart r isRegion s isRegion'
    obtain ⟨r', isUsed, within⟩ := inUsed first memFirst r isRegion
    obtain ⟨s', isUsed', within'⟩ := inUsed second memSecond s isRegion'
    exact (apart r' isUsed s' isUsed').within within within'
  · intro r mem
    obtain ⟨result, memResult, isRegion⟩ := List.mem_filterMap.mp mem
    obtain ⟨s, isUsed, within⟩ := inUsed result memResult r isRegion
    obtain ⟨block, isLive, inBlock⟩ :=
      blocks.usedWithin s (List.mem_filterMap.mpr ⟨result, memResult, isUsed⟩)
    refine ⟨block, isLive, ?_, ?_⟩
    · obtain ⟨low, high⟩ := within
      obtain ⟨low', high'⟩ := inBlock
      exact ⟨Nat.le_trans low' low, Nat.le_trans high high'⟩
    · exact blocks.blocks.mem_iff.mpr (List.mem_map.mpr ⟨block, isLive, rfl⟩)
  · exact blocks.blocks
  · exact blocks.nodup

/-- A sequence of requests only stops when `malloc` has no memory left. Otherwise it is provided with
storage that is aligned, zero and apart, exactly when each size can be rounded up in 64 bits. -/
theorem arena_exact (m : Malloc) (memory : Memory) (calls : List Call) :
    (serveAll m calls).run (.initial memory) = .error (.assertion "allocated") ∨
      ∃ results st, (serveAll m calls).run (.initial memory) = .ok (results, st) ∧
        results.map Result.size = calls.map (fun call => call.size.toNat) ∧
        (Provides st results ↔ ∀ call ∈ calls, call.size.toNat ≤ 2 ^ 64 - 32) := by
  have blocks : Blocks (.initial memory) [] :=
    { room := Nat.zero_le _
      positive := Nat.zero_lt_succ 255
      blocks := List.Perm.refl _
      apart := List.Pairwise.nil
      sized := fun _ mem => nomatch mem
      aligned := fun _ mem => nomatch mem
      usedApart := List.Pairwise.nil
      usedWithin := fun _ mem => nomatch mem }
  have available : Available (.initial memory) [] :=
    ⟨Nat.zero_le _, ⟨0, rfl⟩, fun positive => absurd positive (Nat.lt_irrefl 0)⟩
  cases serveAll_yields m blocks available with
  | inl stops => exact .inl stops
  | inr ends =>
      obtain ⟨results, st, ran, served⟩ := ends
      refine .inr ⟨results, st, ran, served.sizes, ?_⟩
      constructor
      · intro provides call mem
        by_contra large
        have listed : call.size.toNat ∈ results.map Result.size := by
          rw [served.sizes]
          exact List.mem_map.mpr ⟨call, mem, rfl⟩
        obtain ⟨result, memResult, same⟩ := List.mem_map.mp listed
        have none := served.null result memResult
          (by rw [same]; exact roundUp_of_gt call.size.isLt large)
        obtain ⟨address, pointer, -⟩ := provides.provided result memResult (by omega)
        rw [none] at pointer
        exact nomatch pointer
      · intro small
        apply served.provides
        intro result mem
        have listed : result.size ∈ calls.map fun call => call.size.toNat := by
          rw [← served.sizes]
          exact List.mem_map.mpr ⟨result, mem, rfl⟩
        obtain ⟨call, memCall, same⟩ := List.mem_map.mp listed
        rw [← same]
        exact small call memCall

/-- Memory behind all that is allocated. -/
def bumpMalloc : Malloc where
  malloc live size :=
    let top := (live.map fun r => r.start + r.size).sum
    if 16 * (top + 1) + size ≤ 2 ^ 64 then some (16 * (top + 1)) else none
  aligned := by
    intro live size address found
    obtain ⟨-, same⟩ := Option.ite_none_right_eq_some.mp found
    cases same
    exact ⟨_, rfl⟩
  apart := by
    intro live size address found r mem
    obtain ⟨-, same⟩ := Option.ite_none_right_eq_some.mp found
    cases same
    have le : r.start + r.size ≤ (live.map fun r => r.start + r.size).sum :=
      List.le_sum_of_mem (List.mem_map.mpr ⟨r, mem, rfl⟩)
    right
    change r.start + r.size ≤ 16 * (_ + 1)
    omega

/-- A request for almost all addresses gets the answer to a request for nothing. -/
theorem arena_wraps : ∃ results st,
    (serveAll bumpMalloc [⟨BitVec.allOnes 64, fun _ => 0⟩]).run (.initial fun _ => 0) =
      .ok (results, st) ∧
    results.map Result.pointer = [none] ∧ ¬ Provides st results := by
  refine ⟨[⟨2 ^ 64 - 1, none, fun _ => 0⟩], .initial fun _ => 0, rfl, rfl, ?_⟩
  intro provides
  obtain ⟨address, pointer, -⟩ :=
    provides.provided ⟨2 ^ 64 - 1, none, fun _ => 0⟩ List.mem_cons_self (by decide)
  exact nomatch pointer

end Shady.Arenas
