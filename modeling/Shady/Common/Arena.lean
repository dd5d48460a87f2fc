import Mathlib.Algebra.Group.Nat.Defs
import Shady.Library.Stateful

/-!
# Arenas

Model of `src/common/arena.c` on x86-64, where `max_align_t` has 32 bytes and an alignment of 16.
Addresses are numbers. The array of block pointers is a list.
-/

set_option autoImplicit false

namespace Shady.Arenas

open Stateful

abbrev Memory := Nat → BitVec 8

structure Region where
  start : Nat
  size : Nat

def Region.Apart (r s : Region) : Prop :=
  r.start + r.size ≤ s.start ∨ s.start + s.size ≤ r.start

def Region.Within (r s : Region) : Prop :=
  s.start ≤ r.start ∧ r.start + r.size ≤ s.start + s.size

/-- `malloc`, given what is allocated; it may run out of memory. -/
structure Malloc where
  malloc : List Region → Nat → Option Nat
  aligned : ∀ {live size address}, malloc live size = some address → 16 ∣ address
  apart : ∀ {live size address}, malloc live size = some address →
    ∀ r ∈ live, Region.Apart ⟨address, size⟩ r

def allocSize : Nat := 1024 * 1024

/-- `sizeof(max_align_t)` -/
def maxAlignSize : Nat := 32

/-- On numbers of 64 bits. -/
def roundUp (a b : Nat) : Nat := (a + b - 1) % 2 ^ 64 / b * b % 2 ^ 64

structure Arena where
  maxblocks : Nat
  blocks : List Nat
  available : Nat

def Arena.nblocks (arena : Arena) : Nat := arena.blocks.length

def shdNewArena : Arena := ⟨256, [], 0⟩

/-- What is freed, in this order. -/
def shdDestroyArena (arena : Arena) : List Nat := arena.blocks

/-- An arena, the blocks that were allocated for it, and the memory. -/
structure State where
  arena : Arena
  live : List Region
  memory : Memory

inductive ArenaError
  | assertion (text : String)
  deriving DecidableEq

abbrev M := Prog State ArenaError

def check (condition : Bool) (text : String) : M Unit :=
  if condition then pure () else throw (.assertion text)

/-- `memset` with zero. -/
def clear (start size : Nat) : M Unit :=
  modify fun st => { st with
    memory := fun address =>
      if start ≤ address ∧ address < start + size then 0 else st.memory address }

/-- `malloc`, and `assert(allocated)` -/
def allocate (m : Malloc) (size : Nat) : M Nat := do
  let st ← get
  match m.malloc st.live size with
  | none => throw (.assertion "allocated")
  | some address =>
      set { st with live := ⟨address, size⟩ :: st.live }
      return address

def newBlock (m : Malloc) (size : Nat) : M Nat := do
  let st ← get
  check (st.arena.nblocks ≤ st.arena.maxblocks) "arena->nblocks <= arena->maxblocks"
  let allocated ← allocate m size
  modify fun st' => { st' with
    arena := { st.arena with
      -- more storage for the block pointers themselves
      maxblocks := if st.arena.nblocks = st.arena.maxblocks then st.arena.maxblocks * 2
        else st.arena.maxblocks
      blocks := st.arena.blocks ++ [allocated] } }
  return allocated

/-- The last two blocks change places. -/
def swapLast (blocks : List Nat) : List Nat :=
  match blocks.reverse with
  | last :: previous :: front => front.reverse ++ [last, previous]
  | _ => blocks

/-- The last block, from where it is not used yet. -/
def takeAvailable (size : Nat) : M Nat := do
  let st ← get
  check (size ≤ st.arena.available) "size <= arena->available"
  let inBlock := allocSize - st.arena.available
  let allocated := st.arena.blocks.getLastD 0 + inBlock
  clear allocated size
  modify fun st => { st with arena :=
    { st.arena with available := st.arena.available - size } }
  return allocated

/-- Where the arena is full. -/
def refill (m : Malloc) (size : Nat) : M Unit := do
  if (← get).arena.available < size then
    let _ ← newBlock m allocSize
    modify fun st => { st with arena := { st.arena with available := allocSize } }

/-- `NULL` is no address. -/
def shdArenaAlloc (m : Malloc) (requested : Nat) : M (Option Nat) := do
  let size := roundUp requested maxAlignSize
  if size = 0 then return none
  else if allocSize < size then
    let allocated ← newBlock m size
    clear allocated size
    modify fun st => { st with arena :=
      { st.arena with blocks := swapLast st.arena.blocks } }
    return some allocated
  else
    refill m size
    return some (← takeAvailable size)

/-! ## Sequences of allocations -/

/-- An allocation, with what the memory holds before it. -/
structure Call where
  size : BitVec 64
  before : Memory

/-- What an allocation of a size returned, and the memory behind it. -/
structure Result where
  size : Nat
  pointer : Option Nat
  after : Memory

def serve (m : Malloc) (call : Call) : M Result := do
  modify fun st => { st with memory := call.before }
  let pointer ← shdArenaAlloc m call.size.toNat
  return ⟨call.size.toNat, pointer, (← get).memory⟩

def serveAll (m : Malloc) (calls : List Call) : M (List Result) := calls.mapM (serve m)

def State.initial (memory : Memory) : State := ⟨shdNewArena, [], memory⟩

/-! ## What an arena is for -/

/-- Storage that is aligned and zero; nothing is asked for without a byte. -/
def Result.Provided (result : Result) : Prop :=
  0 < result.size → ∃ address, result.pointer = some address ∧ 16 ∣ address ∧
    ∀ k < result.size, result.after (address + k) = 0

def Result.region (result : Result) : Option Region :=
  result.pointer.map fun address => ⟨address, result.size⟩

structure Provides (st : State) (results : List Result) : Prop where
  provided : ∀ result ∈ results, result.Provided
  apart : (results.filterMap Result.region).Pairwise Region.Apart
  within : ∀ r ∈ results.filterMap Result.region, ∃ block ∈ st.live,
    r.Within block ∧ block.start ∈ shdDestroyArena st.arena
  /-- All blocks are freed once. -/
  freed : (shdDestroyArena st.arena).Perm (st.live.map Region.start)
  once : (shdDestroyArena st.arena).Nodup

end Shady.Arenas
