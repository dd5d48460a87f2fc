import Shady.Common.Dict
import Mathlib.Tactic

/-!
# Walks through a dict

What the invariant of a dict says of a key's place, and where the walks of a lookup and
of an insertion end.
-/

set_option autoImplicit false

namespace Shady.Common

namespace Dict
variable {K V : Type} (h : Hashing K) (d : Dict K V) (key : K)

/-- The bucket that is reached after a number of steps. -/
def probe (start steps : Nat) : Nat :=
  if start + steps < d.size then start + steps else start + steps - d.size

/-- Every bucket with a key is reached from the key's hash without passing an unused one. -/
def Reaches (pos : Nat) : Prop :=
  ∃ i, i < d.size ∧ pos = d.probe (d.initPos h key) i ∧
    ∀ j, j < i → d.bucket (d.probe (d.initPos h key) j) ≠ .empty

def isPresent : Bucket K V → Bool
  | .present _ _ => true
  | _ => false

structure Wf : Prop where
  nonempty : 0 < d.size
  reached : ∀ pos k v, d.bucket pos = .present k v → d.Reaches h k pos
  distinct : ∀ pos pos' k v k' v', d.bucket pos = .present k v → d.bucket pos' = .present k' v' →
    h.cmp k k' = true → pos = pos'
  counted : d.entriesCount = d.buckets.countP isPresent % sizeBound

def Absent : Prop := ∀ pos k v, d.bucket pos = .present k v → h.cmp k key = false

/-- The first buckets of the walk: in use, and without the key. -/
def Passed (steps : Nat) : Prop :=
  ∀ j, j < steps → d.bucket (d.probe (d.initPos h key) j) ≠ .empty ∧
    ∀ k v, d.bucket (d.probe (d.initPos h key) j) = .present k v → h.cmp k key = false

variable {h d key}

theorem initPos_lt (positive : 0 < d.size) : d.initPos h key < d.size := Nat.mod_lt _ positive

theorem probe_zero {start : Nat} (inside : start < d.size) : d.probe start 0 = start := by
  rw [probe, Nat.add_zero, if_pos inside]

theorem step_probe {start i : Nat} (inside : start < d.size) (left : i < d.size) :
    d.step (d.probe start i) = d.probe start (i + 1) := by
  simp only [step, probe]
  split <;> split <;> split <;> omega

/-- The walk is back where it began after as many steps as there are buckets. -/
theorem step_probe_eq_iff {start i : Nat} (inside : start < d.size) (left : i < d.size) :
    d.step (d.probe start i) = start ↔ i + 1 = d.size := by
  rw [step_probe inside left, probe]
  split <;> omega

theorem bucket_eq_some {pos : Nat} {b : Bucket K V} (used : b ≠ .empty) :
    d.bucket pos = b ↔ d.buckets[pos]? = some b := by
  rw [bucket]
  cases found : d.buckets[pos]? with
  | none => simpa using fun same => absurd same.symm used
  | some other => simp

theorem lt_of_bucket {pos : Nat} (used : d.bucket pos ≠ .empty) : pos < d.size := by
  by_contra outside
  have missing : d.buckets[pos]? = none := List.getElem?_eq_none (not_lt.mp outside)
  exact used (by rw [bucket, missing]; rfl)

theorem mem_buckets_iff {k : K} {v : V} :
    .present k v ∈ d.buckets ↔ ∃ pos, d.bucket pos = .present k v := by
  rw [List.mem_iff_getElem?]
  have used : (.present k v : Bucket K V) ≠ .empty := nofun
  exact exists_congr fun pos => (bucket_eq_some used).symm

/-- The walk towards a key is the walk towards each key that is equal to it. -/
theorem initPos_eq {k : K} (equal : h.cmp k key = true) : d.initPos h k = d.initPos h key := by
  rw [initPos, initPos, h.hash_eq k key equal]

/-- A key that is not met before an unused bucket, or the whole way round, is not there. -/
theorem absent_of_passed (wf : d.Wf h) {steps : Nat} (passed : d.Passed h key steps)
    (ended : d.size ≤ steps ∨ d.bucket (d.probe (d.initPos h key) steps) = .empty) :
    d.Absent h key := by
  intro pos k v found
  by_contra equal
  rw [Bool.not_eq_false] at equal
  obtain ⟨i, inside, place, used⟩ := wf.reached pos k v found
  rw [initPos_eq equal] at place used
  rcases lt_trichotomy i steps with before | same | after
  · have other := (passed i before).2 k v (place ▸ found)
    rw [equal] at other
    cases other
  · cases ended with
    | inl all => omega
    | inr unused =>
        rw [same] at place
        rw [← place, found] at unused
        cases unused
  · cases ended with
    | inl all => omega
    | inr unused => exact used steps after unused

theorem passed_zero (h : Hashing K) (d : Dict K V) (key : K) : d.Passed h key 0 :=
  fun j before => absurd before (Nat.not_lt_zero j)

theorem Passed.succ {steps : Nat} (passed : d.Passed h key steps)
    (used : d.bucket (d.probe (d.initPos h key) steps) ≠ .empty)
    (other : ∀ k v, d.bucket (d.probe (d.initPos h key) steps) = .present k v → h.cmp k key = false) :
    d.Passed h key (steps + 1) := by
  intro j before
  rcases Nat.lt_succ_iff_lt_or_eq.mp before with earlier | last
  · exact passed j earlier
  · rw [last]
    exact ⟨used, other⟩

/-! ## Lookups -/

theorem findLoop_spec (wf : d.Wf h) : ∀ (turns i : Nat), i + turns = d.size → 0 < turns →
    d.Passed h key i →
    match d.findLoop h key turns (d.probe (d.initPos h key) i) with
    | some pos => ∃ k v, d.bucket pos = .present k v ∧ h.cmp k key = true
    | none => d.Absent h key := by
  intro turns
  induction turns with
  | zero => intro i total positive; omega
  | succ turns ih =>
      intro i total positive passed
      have left : i < d.size := by omega
      have inside : d.initPos h key < d.size := initPos_lt wf.nonempty
      have goOn : d.Passed h key (i + 1) →
          match (if d.step (d.probe (d.initPos h key) i) = d.initPos h key then none
            else d.findLoop h key turns (d.step (d.probe (d.initPos h key) i))) with
          | some pos => ∃ k v, d.bucket pos = .present k v ∧ h.cmp k key = true
          | none => d.Absent h key := by
        intro passed'
        by_cases round : i + 1 = d.size
        · rw [if_pos ((step_probe_eq_iff inside left).mpr round)]
          exact absent_of_passed wf passed' (.inl round.ge)
        · rw [if_neg fun back => round ((step_probe_eq_iff inside left).mp back), step_probe inside left]
          exact ih (i + 1) (by omega) (by omega) passed'
      rw [findLoop]
      cases atPos : d.bucket (d.probe (d.initPos h key) i) with
      | empty => exact absent_of_passed wf passed (.inr atPos)
      | thombstone =>
          refine goOn (passed.succ ?_ ?_)
          · rw [atPos]; nofun
          · rw [atPos]; nofun
      | present k v =>
          by_cases equal : h.cmp k key = true
          · simp only [equal, if_true]
            exact ⟨k, v, atPos, equal⟩
          · simp only [equal]
            refine goOn (passed.succ ?_ ?_)
            · rw [atPos]; nofun
            · intro k' v' same
              rw [atPos] at same
              cases same
              exact Bool.eq_false_of_not_eq_true equal

theorem findPos_spec (h : Hashing K) (d : Dict K V) (key : K) (wf : d.Wf h) :
    match d.findPos h key with
    | some pos => ∃ k v, d.bucket pos = .present k v ∧ h.cmp k key = true
    | none => d.Absent h key := by
  have ofLoop := findLoop_spec wf d.size 0 (Nat.zero_add _) wf.nonempty (passed_zero h d key)
  rw [probe_zero (initPos_lt wf.nonempty)] at ofLoop
  exact ofLoop

/-! ## Insertions -/

/-- A bucket the key can be put in. -/
def Available (h : Hashing K) (d : Dict K V) (key : K) (pos : Nat) : Prop :=
  d.Reaches h key pos ∧ ∀ k v, d.bucket pos ≠ .present k v

/-- Where an insertion may end. -/
def Landed (h : Hashing K) (d : Dict K V) (key : K) : Mode × Nat × Nat → Prop
  | (.inserting, _, first) => d.Available h key first ∧ d.Absent h key
  | (.overwriting, pos, first) =>
      pos = first ∧ ∃ k v, d.bucket first = .present k v ∧ h.cmp k key = true
  | (.moving, pos, first) =>
      pos ≠ first ∧ d.Available h key first ∧ ∃ k v, d.bucket pos = .present k v ∧ h.cmp k key = true

/-- What is known of the first bucket without a key. -/
structure FirstOk (h : Hashing K) (d : Dict K V) (key : K) (steps : Nat) (first : Option Nat) :
    Prop where
  found : ∀ pos, first = some pos → d.Available h key pos
  none : first = none → ∀ j, j < steps → isPresent (d.bucket (d.probe (d.initPos h key) j)) = true

/-- Every bucket has a key. -/
def Full (d : Dict K V) : Prop := ∀ pos, pos < d.size → isPresent (d.bucket pos) = true

theorem full_of_probes {start : Nat} (inside : start < d.size)
    (all : ∀ j, j < d.size → isPresent (d.bucket (d.probe start j)) = true) : d.Full := by
  intro pos isPos
  by_cases after : start ≤ pos
  · have reached := all (pos - start) (by omega)
    rwa [probe, if_pos (by omega), Nat.add_sub_cancel' after] at reached
  · have reached := all (pos + d.size - start) (by omega)
    have back : start + (pos + d.size - start) - d.size = pos := by omega
    rwa [probe, if_neg (by omega), back] at reached

theorem insertLoop_spec (wf : d.Wf h) : ∀ (turns i : Nat) (first : Option Nat),
    i + turns = d.size → 0 < turns → d.Passed h key i → d.FirstOk h key i first →
    match d.insertLoop h key turns (d.probe (d.initPos h key) i) first with
    | some landing => d.Landed h key landing
    | none => d.Absent h key ∧ d.Full := by
  intro turns
  induction turns with
  | zero => intro i first total positive; omega
  | succ turns ih =>
      intro i first total positive passed firstOk
      have left : i < d.size := by omega
      have inside : d.initPos h key < d.size := initPos_lt wf.nonempty
      have reaches : d.Reaches h key (d.probe (d.initPos h key) i) :=
        ⟨i, left, rfl, fun j before => (passed j before).1⟩
      have goOn : ∀ first' : Option Nat, d.Passed h key (i + 1) → d.FirstOk h key (i + 1) first' →
          match (if d.step (d.probe (d.initPos h key) i) = d.initPos h key then
              first'.map fun found =>
                (Mode.inserting, d.step (d.probe (d.initPos h key) i), found)
            else d.insertLoop h key turns (d.step (d.probe (d.initPos h key) i)) first') with
          | some landing => d.Landed h key landing
          | none => d.Absent h key ∧ d.Full := by
        intro first' passed' firstOk'
        by_cases round : i + 1 = d.size
        · rw [if_pos ((step_probe_eq_iff inside left).mpr round)]
          have absent := absent_of_passed wf passed' (.inl round.ge)
          cases atFirst : first' with
          | none =>
              refine ⟨absent, full_of_probes inside fun j isPos => ?_⟩
              exact firstOk'.none atFirst j (by omega)
          | some pos => exact ⟨firstOk'.found pos atFirst, absent⟩
        · rw [if_neg fun back => round ((step_probe_eq_iff inside left).mp back), step_probe inside left]
          exact ih (i + 1) first' (by omega) (by omega) passed' firstOk'
      rw [insertLoop]
      cases atPos : d.bucket (d.probe (d.initPos h key) i) with
      | empty =>
          have absent := absent_of_passed wf passed (.inr atPos)
          refine ⟨?_, absent⟩
          cases atFirst : first with
          | none =>
              refine ⟨reaches, fun k v same => ?_⟩
              change d.bucket (d.probe (d.initPos h key) i) = _ at same
              rw [atPos] at same
              cases same
          | some pos => exact firstOk.found pos atFirst
      | thombstone =>
          have available : d.Available h key (d.probe (d.initPos h key) i) := by
            refine ⟨reaches, fun k v same => ?_⟩
            rw [atPos] at same
            cases same
          refine goOn _ (passed.succ ?_ ?_) ⟨?_, nofun⟩
          · rw [atPos]; nofun
          · rw [atPos]; nofun
          · intro pos isFirst
            cases atFirst : first with
            | none =>
                rw [atFirst] at isFirst
                exact Option.some.inj isFirst ▸ available
            | some old =>
                rw [atFirst] at isFirst
                exact firstOk.found pos (atFirst.trans isFirst)
      | present k v =>
          by_cases equal : h.cmp k key = true
          · simp only [equal, if_true]
            cases atFirst : first with
            | none =>
                simp only [Option.getD_none, if_true]
                exact ⟨rfl, k, v, atPos, equal⟩
            | some pos =>
                have available := firstOk.found pos atFirst
                have apart : pos ≠ d.probe (d.initPos h key) i := by
                  rintro rfl
                  exact available.2 k v atPos
                simp only [Option.getD_some, if_neg apart]
                exact ⟨apart.symm, available, k, v, atPos, equal⟩
          · simp only [equal]
            refine goOn _ (passed.succ ?_ ?_) ⟨firstOk.found, ?_⟩
            · rw [atPos]; nofun
            · intro k' v' same
              rw [atPos] at same
              cases same
              exact Bool.eq_false_of_not_eq_true equal
            · intro noFirst j before
              rcases Nat.lt_succ_iff_lt_or_eq.mp before with earlier | last
              · exact firstOk.none noFirst j earlier
              · rw [last, atPos]
                rfl

/-- An insertion finds a bucket, unless the key is not there and every bucket has another. -/
theorem insertHere_landed (key : K) (wf : d.Wf h) (value : V) :
    match d.insertHere h key value with
    | some inserted => ∃ landing, d.Landed h key landing ∧ inserted = d.place key value landing
    | none => d.Absent h key ∧ d.Full := by
  have ofLoop := insertLoop_spec wf d.size 0 none (Nat.zero_add _) wf.nonempty (passed_zero h d key)
    ⟨nofun, fun _ j before => absurd before (Nat.not_lt_zero j)⟩
  rw [probe_zero (initPos_lt wf.nonempty)] at ofLoop
  rw [insertHere]
  cases ended : d.insertLoop h key d.size (d.initPos h key) none with
  | none =>
      rw [ended] at ofLoop
      exact ofLoop
  | some landing =>
      rw [ended] at ofLoop
      exact ⟨landing, ofLoop, rfl⟩

end Dict

end Shady.Common
