import Mathlib.Algebra.Group.Nat.Defs
import Mathlib.Data.List.Basic
import Mathlib.Data.Nat.Log

/-!
# Dicts

The hash table of the common library: open addressing with tombstones. A key is looked
for from its hash on, one bucket after the other, until a bucket that was never used. An
insertion takes the first bucket it passed that holds no key; a key found behind it moves.
A table whose load, as the two counters give it, is above 0.6 is first copied into one of
twice the size.
-/

set_option autoImplicit false

namespace Shady.Common

/-- `hash_fn` and `cmp_fn`: an equality of keys, and a hash that respects it. -/
structure Hashing (K : Type) where
  hash : K → Nat
  cmp : K → K → Bool
  refl : ∀ a, cmp a a = true
  symm : ∀ a b, cmp a b = true → cmp b a = true
  trans : ∀ a b c, cmp a b = true → cmp b c = true → cmp a c = true
  hash_eq : ∀ a b, cmp a b = true → hash a = hash b

inductive Bucket (K V : Type)
  | empty
  | thombstone
  | present (key : K) (value : V)

structure Dict (K V : Type) where
  entriesCount : Nat
  thombstonesCount : Nat
  buckets : List (Bucket K V)

inductive Mode
  | inserting
  | overwriting
  | moving
  deriving DecidableEq

section Rounding

/-- An integer as a `float`: 24 significant bits, ties to even. -/
def toFloat (n : Nat) : Nat :=
  let ulp := 2 ^ (n.log2 - 23)
  if ulp < 2 * (n % ulp) ∨ (ulp = 2 * (n % ulp) ∧ n / ulp % 2 = 1) then (n / ulp + 1) * ulp
  else n / ulp * ulp

/-- The counters are of type `size_t`. -/
def sizeBound : Nat := 2 ^ 64

/-- `load_factor > 0.6`, where 0.6 is the `double` 5404319552844595 / 2 ^ 53. -/
def overloaded (load size : Nat) : Bool :=
  decide (5404319552844595 * toFloat size < 2 ^ 53 * toFloat load)

end Rounding

namespace Dict
variable {K V : Type}

def size (d : Dict K V) : Nat := d.buckets.length

def bucket (d : Dict K V) (pos : Nat) : Bucket K V := d.buckets[pos]?.getD .empty

def initSize : Nat := 32

def newDict : Dict K V := ⟨0, 0, List.replicate initSize .empty⟩

def clone (source : Dict K V) : Dict K V :=
  ⟨source.entriesCount, source.thombstonesCount, source.buckets⟩

def clear (d : Dict K V) : Dict K V := ⟨0, 0, List.replicate d.size .empty⟩

/-- The bucket after this one, around the end of the table. -/
def step (d : Dict K V) (pos : Nat) : Nat := if pos + 1 = d.size then 0 else pos + 1

variable (h : Hashing K)

def initPos (d : Dict K V) (key : K) : Nat := h.hash key % d.size

/-! ## Finding -/

/-- The walk of a lookup; it has as many turns left as there are buckets to see. -/
def findLoop (d : Dict K V) (key : K) : Nat → Nat → Option Nat
  | 0, _ => none
  | turns + 1, pos =>
      let rest := if d.step pos = d.initPos h key then none else findLoop d key turns (d.step pos)
      match d.bucket pos with
      | .empty => none
      | .thombstone => rest
      | .present inDict _ => if h.cmp inDict key then some pos else rest

def findPos (d : Dict K V) (key : K) : Option Nat := findLoop h d key d.size (d.initPos h key)

/-- The key in the dict, with its value. -/
def find (d : Dict K V) (key : K) : Option (K × V) :=
  (d.findPos h key).bind fun pos =>
    match d.bucket pos with
    | .present inDict value => some (inDict, value)
    | _ => none

def decrement (count : Nat) : Nat := (count + (sizeBound - 1)) % sizeBound

/-- Whether the key was there, and the dict without it. -/
def remove (d : Dict K V) (key : K) : Bool × Dict K V :=
  match d.findPos h key with
  | some pos =>
      (true, ⟨decrement d.entriesCount, (d.thombstonesCount + 1) % sizeBound,
        d.buckets.set pos .thombstone⟩)
  | none => (false, d)

/-! ## Inserting -/

/-- The walk of an insertion: how it ends, where, and the first bucket without a key. It is
    `none` where the assertion that there is such a bucket fails. -/
def insertLoop (d : Dict K V) (key : K) : Nat → Nat → Option Nat → Option (Mode × Nat × Nat)
  | 0, _, _ => none
  | turns + 1, pos, firstAvailable =>
      let rest := fun first : Option Nat =>
        if d.step pos = d.initPos h key then first.map fun found => (.inserting, d.step pos, found)
        else insertLoop d key turns (d.step pos) first
      match d.bucket pos with
      | .empty => some (.inserting, pos, firstAvailable.getD pos)
      | .thombstone => rest (some (firstAvailable.getD pos))
      | .present inDict _ =>
          if h.cmp inDict key then
            some (if firstAvailable.getD pos = pos then .overwriting else .moving, pos,
              firstAvailable.getD pos)
          else rest firstAvailable

def isThombstone : Bucket K V → Bool
  | .thombstone => true
  | _ => false

/-- The rest of an insertion, when the buckets have been found. -/
def place (d : Dict K V) (key : K) (value : V) : Mode × Nat × Nat → Bool × Dict K V
  | (mode, pos, first) =>
      let thombstonesCount :=
        if isThombstone (d.bucket first) then decrement d.thombstonesCount else d.thombstonesCount
      match mode with
      | .inserting =>
          (true, ⟨(d.entriesCount + 1) % sizeBound, thombstonesCount,
            d.buckets.set first (.present key value)⟩)
      | .overwriting =>
          (false, ⟨d.entriesCount, thombstonesCount, d.buckets.set first (.present key value)⟩)
      | .moving =>
          (false, ⟨d.entriesCount, thombstonesCount,
            (d.buckets.set pos .thombstone).set first (.present key value)⟩)

/-- `dict_insert`, after the load has been looked at. -/
def insertHere (d : Dict K V) (key : K) (value : V) : Option (Bool × Dict K V) :=
  (d.insertLoop h key d.size (d.initPos h key) none).map (d.place key value)

/-- `dict_insert`: whether the key is new, and the dict with it. -/
def insertWith (grow : Dict K V → Option (Dict K V)) (d : Dict K V) (key : K) (value : V) :
    Option (Bool × Dict K V) :=
  if overloaded ((d.entriesCount + d.thombstonesCount) % sizeBound) d.size then
    (grow d).bind fun grown => grown.insertHere h key value
  else d.insertHere h key value

/-- Each key of the old buckets has to be new in the dict. -/
def rehash (insert : Dict K V → K → V → Option (Bool × Dict K V)) :
    List (Bucket K V) → Dict K V → Option (Dict K V)
  | [], d => some d
  | .present key value :: rest, d =>
      (insert d key value).bind fun inserted =>
        if inserted.1 then rehash insert rest inserted.2 else none
  | _ :: rest, d => rehash insert rest d

/-- The insertions of a rehash could make the dict grow again, as often as the bound says. -/
def growAndRehash : Nat → Dict K V → Option (Dict K V)
  | 0, _ => none
  | bound + 1, d =>
      (rehash (insertWith h (growAndRehash bound)) d.buckets
        ⟨0, 0, List.replicate (d.size * 2) .empty⟩).bind fun grown =>
        if d.entriesCount = grown.entriesCount then some grown else none

def insert (bound : Nat) (d : Dict K V) (key : K) (value : V) : Option (Bool × Dict K V) :=
  insertWith h (growAndRehash h bound) d key value

/-! ## Iterating -/

/-- The next bucket with a key from the iterator on, and the iterator after it. -/
def iterFrom : List (Bucket K V) → Nat → Option ((K × V) × Nat)
  | [], _ => none
  | .present key value :: _, pos => some ((key, value), pos + 1)
  | _ :: rest, pos => iterFrom rest (pos + 1)

def iter (d : Dict K V) (iterator : Nat) : Option ((K × V) × Nat) :=
  iterFrom (d.buckets.drop iterator) iterator

/-- What a loop over the dict visits, from an iterator on. -/
def visited (d : Dict K V) : Nat → Nat → List (K × V)
  | 0, _ => []
  | turns + 1, iterator =>
      match d.iter iterator with
      | none => []
      | some (entry, next) => entry :: visited d turns next

def entries (d : Dict K V) : List (K × V) := d.visited (d.size + 1) 0

end Dict

/-! ## Sequences of operations -/

inductive Request (K V : Type)
  | insert (dict : Nat) (key : K) (value : V)
  | remove (dict : Nat) (key : K)
  | find (dict : Nat) (key : K)
  | clone (dict : Nat)
  | clear (dict : Nat)
  | iterate (dict : Nat)

inductive Answer (K V : Type)
  | inserted (fresh : Bool)
  | removed (found : Bool)
  | found (entry : Option (K × V))
  | visited (entries : List (K × V))
  | nothing

section Requests
variable {K V : Type} (h : Hashing K) (bound : Nat)

/-- One request to one of the dicts; of a dict that there is not, nothing is asked. -/
def serve (dicts : List (Dict K V)) : Request K V → Option (Answer K V × List (Dict K V))
  | .insert i key value =>
      match dicts[i]? with
      | none => some (.nothing, dicts)
      | some d => (d.insert h bound key value).map fun r => (.inserted r.1, dicts.set i r.2)
  | .remove i key =>
      match dicts[i]? with
      | none => some (.nothing, dicts)
      | some d => some (.removed (d.remove h key).1, dicts.set i (d.remove h key).2)
  | .find i key =>
      match dicts[i]? with
      | none => some (.nothing, dicts)
      | some d => some (.found (d.find h key), dicts)
  | .clone i =>
      match dicts[i]? with
      | none => some (.nothing, dicts)
      | some d => some (.nothing, dicts ++ [d.clone])
  | .clear i =>
      match dicts[i]? with
      | none => some (.nothing, dicts)
      | some d => some (.nothing, dicts.set i d.clear)
  | .iterate i =>
      match dicts[i]? with
      | none => some (.nothing, dicts)
      | some d => some (.visited d.entries, dicts)

def serveAll : List (Request K V) → List (Dict K V) → Option (List (Answer K V) × List (Dict K V))
  | [], dicts => some ([], dicts)
  | request :: rest, dicts =>
      (serve h bound dicts request).bind fun served =>
        (serveAll rest served.2).map fun r => (served.1 :: r.1, r.2)

end Requests

end Shady.Common
