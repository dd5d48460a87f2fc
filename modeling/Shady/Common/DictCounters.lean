import Shady.Common.DictRuns

/-!
# The counters of a dict

As long as no key moves, the counters of a dict are the numbers of its keys and of its
tombstones, and a dict that need not grow has room. A key that moves leaves a tombstone
that is not counted.
-/

set_option autoImplicit false

namespace Shady.Common

namespace Dict
variable {K V : Type} {h : Hashing K} {d d' : Dict K V} {key : K} {value : V}

/-- The counters are exact, and every walk meets an unused bucket. -/
structure Healthy (h : Hashing K) (d : Dict K V) : Prop where
  fits : d.size < sizeBound
  entries : d.entriesCount = d.buckets.countP isPresent
  thombstones : d.thombstonesCount = d.buckets.countP isThombstone
  room : d.entriesCount + d.thombstonesCount < d.size
  walks : ∀ key, ∃ i, i < d.size ∧ d.bucket (d.probe (d.initPos h key) i) = .empty

/-- The key is in the dict, on its walk after a tombstone. -/
def Displaced (h : Hashing K) (d : Dict K V) (key : K) : Prop :=
  ∃ i j, i < j ∧ j < d.size ∧ d.bucket (d.probe (d.initPos h key) i) = .thombstone ∧
    ∃ k v, d.bucket (d.probe (d.initPos h key) j) = .present k v ∧ h.cmp k key = true

/-- A dict that has to grow can, and the key of any other is not behind a tombstone. -/
def Steady (h : Hashing K) (d : Dict K V) (key : K) : Prop :=
  if overloaded ((d.entriesCount + d.thombstonesCount) % sizeBound) d.size = true then
    d.size * 2 < sizeBound
  else ¬ d.Displaced h key

/-! ## Where a walk ends -/

theorem probe_inj {start i j : Nat} (inside : start < d.size) (left : i < d.size) (left' : j < d.size)
    (same : d.probe start i = d.probe start j) : i = j := by
  simp only [probe] at same
  split at same <;> split at same <;> omega

/-- How the walk of an insertion ends, by the tombstones it passed. -/
def Ended (h : Hashing K) (d : Dict K V) (key : K) : Mode × Nat × Nat → Prop
  | (.moving, pos, first) => ∃ i j, i < j ∧ j < d.size ∧ d.probe (d.initPos h key) i = first ∧
      d.probe (d.initPos h key) j = pos ∧ d.bucket first = .thombstone
  | (.overwriting, pos, _) => ∃ j, j < d.size ∧ d.probe (d.initPos h key) j = pos ∧
      ∀ i, i < j → d.bucket (d.probe (d.initPos h key) i) ≠ .thombstone
  | (.inserting, _, _) => True

/-- The first bucket without a key that a walk has passed is a tombstone. -/
structure FirstPassed (h : Hashing K) (d : Dict K V) (key : K) (steps : Nat) (first : Option Nat) : Prop where
  found : ∀ pos, first = some pos →
    d.bucket pos = .thombstone ∧ ∃ i, i < steps ∧ d.probe (d.initPos h key) i = pos
  none : first = none → ∀ i, i < steps → d.bucket (d.probe (d.initPos h key) i) ≠ .thombstone

theorem insertLoop_ended (key : K) (nonempty : 0 < d.size) : ∀ (turns i : Nat) (first : Option Nat),
    i + turns = d.size → d.FirstPassed h key i first → ∀ landing,
    d.insertLoop h key turns (d.probe (d.initPos h key) i) first = some landing → d.Ended h key landing := by
  intro turns
  induction turns with
  | zero =>
      intro i first total passed landing ended
      cases ended
  | succ turns ih =>
      intro i first total passed landing ended
      have left : i < d.size := by omega
      have inside : d.initPos h key < d.size := initPos_lt nonempty
      have goOn : ∀ first' : Option Nat, d.FirstPassed h key (i + 1) first' →
          (if d.step (d.probe (d.initPos h key) i) = d.initPos h key then
              first'.map fun found => (Mode.inserting, d.step (d.probe (d.initPos h key) i), found)
            else d.insertLoop h key turns (d.step (d.probe (d.initPos h key) i)) first') = some landing →
          d.Ended h key landing := by
        intro first' passed' ended'
        split at ended'
        · obtain ⟨pos, -, rfl⟩ := Option.map_eq_some_iff.mp ended'
          trivial
        · rw [step_probe inside left] at ended'
          exact ih (i + 1) first' (by omega) passed' landing ended'
      rw [insertLoop] at ended
      cases atPos : d.bucket (d.probe (d.initPos h key) i) with
      | empty =>
          simp only [atPos, Option.some.injEq] at ended
          rw [← ended]
          trivial
      | thombstone =>
          simp only [atPos] at ended
          refine goOn (some (first.getD (d.probe (d.initPos h key) i)))
            ⟨fun pos isFirst => ?_, fun absent => by cases absent⟩ ended
          cases atFirst : first with
          | none =>
              rw [atFirst] at isFirst
              cases isFirst
              exact ⟨atPos, i, Nat.lt_succ_self i, rfl⟩
          | some old =>
              rw [atFirst] at isFirst
              obtain ⟨isTombstone, j, before, there⟩ := passed.found pos (atFirst.trans isFirst)
              exact ⟨isTombstone, j, Nat.lt_succ_of_lt before, there⟩
      | present k v =>
          simp only [atPos] at ended
          by_cases equal : h.cmp k key = true
          · rw [if_pos equal] at ended
            cases atFirst : first with
            | none =>
                rw [atFirst, Option.getD_none, if_pos rfl, Option.some.injEq] at ended
                rw [← ended]
                exact ⟨i, left, rfl, passed.none atFirst⟩
            | some pos =>
                obtain ⟨isTombstone, j, before, there⟩ := passed.found pos atFirst
                have apart : pos ≠ d.probe (d.initPos h key) i := by
                  intro same
                  rw [same, atPos] at isTombstone
                  cases isTombstone
                rw [atFirst, Option.getD_some, if_neg apart, Option.some.injEq] at ended
                rw [← ended]
                exact ⟨j, i, before, left, there, rfl, isTombstone⟩
          · rw [if_neg equal] at ended
            refine goOn _ ⟨fun pos isFirst => ?_, fun noFirst j before => ?_⟩ ended
            · obtain ⟨isTombstone, j, before, there⟩ := passed.found pos isFirst
              exact ⟨isTombstone, j, Nat.lt_succ_of_lt before, there⟩
            · rcases Nat.lt_succ_iff_lt_or_eq.mp before with earlier | last
              · exact passed.none noFirst j earlier
              · rw [last, atPos]
                intro isTombstone
                cases isTombstone

/-- An insertion moves a key exactly when the key is behind a tombstone. -/
theorem insertHere_ended (wf : d.Wf h) {inserted : Bool × Dict K V}
    (ran : d.insertHere h key value = some inserted) :
    ∃ landing, d.Landed h key landing ∧ inserted = d.place key value landing ∧ d.Ended h key landing ∧
      (landing.1 = .moving ↔ d.Displaced h key) := by
  have spec := insertLoop_spec wf d.size 0 none (Nat.zero_add _) wf.nonempty (passed_zero h d key)
    ⟨(fun pos isFirst => by cases isFirst), fun _ j before => absurd before (Nat.not_lt_zero j)⟩
  have order := insertLoop_ended (h := h) key wf.nonempty d.size 0 none (Nat.zero_add _)
    ⟨(fun pos isFirst => by cases isFirst), fun _ j before => absurd before (Nat.not_lt_zero j)⟩
  rw [probe_zero (initPos_lt wf.nonempty)] at spec order
  rw [insertHere] at ran
  obtain ⟨landing, walked, rfl⟩ := Option.map_eq_some_iff.mp ran
  rw [walked] at spec
  have ended := order landing walked
  refine ⟨landing, spec, rfl, ended, ?_⟩
  obtain ⟨mode, pos, first⟩ := landing
  cases mode with
  | inserting =>
      refine ⟨(fun moving => by cases moving), fun displaced => ?_⟩
      obtain ⟨i, j, -, -, -, k, v, found, equal⟩ := displaced
      rw [spec.2 _ k v found] at equal
      cases equal
  | overwriting =>
      refine ⟨(fun moving => by cases moving), fun displaced => ?_⟩
      obtain ⟨i, j, before, inside, isTombstone, k, v, found, equal⟩ := displaced
      obtain ⟨same, k', v', found', equal'⟩ := spec
      obtain ⟨j', inside', there, none⟩ := ended
      rw [← same, ← there] at found'
      have atSame := wf.distinct _ _ k v k' v' found found' (h.trans k key k' equal (h.symm k' key equal'))
      have equalSteps := probe_inj (initPos_lt wf.nonempty) inside inside' atSame
      exact absurd isTombstone (none i (equalSteps ▸ before))
  | moving =>
      refine ⟨fun _ => ?_, fun _ => rfl⟩
      obtain ⟨-, -, k, v, found, equal⟩ := spec
      obtain ⟨i, j, before, inside, atFirst, atPos, isTombstone⟩ := ended
      exact ⟨i, j, before, inside, atFirst.symm ▸ isTombstone, k, v, atPos.symm ▸ found, equal⟩

/-! ## Counting -/

theorem count_thombstones_set {pos : Nat} {b : Bucket K V} (inside : pos < d.buckets.length) :
    (d.buckets.set pos b).countP isThombstone + (isThombstone (d.bucket pos)).toNat
      = d.buckets.countP isThombstone + (isThombstone b).toNat := by
  have atLeastOne : isThombstone (d.bucket pos) = true → 1 ≤ d.buckets.countP isThombstone := by
    intro isTombstone
    refine List.countP_pos_iff.mpr ⟨d.bucket pos, ?_, isTombstone⟩
    rw [← getElem_eq_bucket inside]
    exact List.getElem_mem inside
  rw [List.countP_set inside, getElem_eq_bucket inside]
  cases before : isThombstone (d.bucket pos) with
  | false => cases after : isThombstone b <;> simp
  | true =>
      have positive := atLeastOne before
      cases after : isThombstone b <;> simp <;> omega

theorem exists_unused (room : d.buckets.countP isPresent + d.buckets.countP isThombstone < d.size) :
    ∃ pos, pos < d.size ∧ d.bucket pos = .empty := by
  have someUnused : ∀ buckets : List (Bucket K V),
      buckets.countP isPresent + buckets.countP isThombstone < buckets.length → .empty ∈ buckets := by
    intro buckets
    induction buckets with
    | nil => exact fun room => absurd room (Nat.not_lt_zero _)
    | cons b rest ih =>
        intro room
        rw [List.countP_cons, List.countP_cons, List.length_cons] at room
        cases b with
        | empty => exact List.mem_cons_self
        | thombstone =>
            simp only [isPresent, isThombstone, Bool.false_eq_true, if_false, if_true] at room
            exact List.mem_cons_of_mem _ (ih (by omega))
        | present k v =>
            simp only [isPresent, isThombstone, Bool.false_eq_true, if_false, if_true] at room
            exact List.mem_cons_of_mem _ (ih (by omega))
  obtain ⟨pos, inside, atPos⟩ := List.getElem_of_mem (someUnused d.buckets room)
  refine ⟨pos, inside, ?_⟩
  rw [← getElem_eq_bucket inside]
  exact atPos

/-- With an unused bucket left, every walk meets one. -/
theorem walks_of_room (room : d.buckets.countP isPresent + d.buckets.countP isThombstone < d.size) (key : K) :
    ∃ i, i < d.size ∧ d.bucket (d.probe (d.initPos h key) i) = .empty := by
  obtain ⟨pos, inside, unused⟩ := exists_unused room
  have start : d.initPos h key < d.size := initPos_lt (Nat.lt_of_le_of_lt (Nat.zero_le _) inside)
  by_cases after : d.initPos h key ≤ pos
  · refine ⟨pos - d.initPos h key, by omega, ?_⟩
    rw [probe, if_pos (by omega), Nat.add_sub_cancel' after]
    exact unused
  · have back : d.initPos h key + (pos + d.size - d.initPos h key) - d.size = pos := by omega
    refine ⟨pos + d.size - d.initPos h key, by omega, ?_⟩
    rw [probe, if_neg (by omega), back]
    exact unused

theorem healthy_of_counts (fits : d.size < sizeBound) (entries : d.entriesCount = d.buckets.countP isPresent)
    (thombstones : d.thombstonesCount = d.buckets.countP isThombstone)
    (room : d.entriesCount + d.thombstonesCount < d.size) : d.Healthy h := by
  refine ⟨fits, entries, thombstones, room, walks_of_room ?_⟩
  rw [← entries, ← thombstones]
  exact room

theorem decrement_of_pos {count : Nat} (positive : 0 < count) (small : count < sizeBound) :
    decrement count = count - 1 := by
  simp only [decrement, sizeBound] at small ⊢
  omega

theorem one_le_thombstones {pos : Nat} (inside : pos < d.buckets.length)
    (isTombstone : d.bucket pos = .thombstone) : 1 ≤ d.buckets.countP isThombstone := by
  refine List.countP_pos_iff.mpr ⟨d.bucket pos, ?_, by rw [isTombstone]; rfl⟩
  rw [← getElem_eq_bucket inside]
  exact List.getElem_mem inside

/-- A counter follows a bucket that is taken. -/
theorem thombstones_taken {first : Nat} (inside : first < d.buckets.length)
    (small : d.thombstonesCount < sizeBound) (exact : d.thombstonesCount = d.buckets.countP isThombstone) :
    (if isThombstone (d.bucket first) = true then decrement d.thombstonesCount else d.thombstonesCount)
      = (d.buckets.set first (.present key value)).countP isThombstone := by
  have after := count_thombstones_set (b := .present key value) inside
  cases taken : isThombstone (d.bucket first) with
  | false =>
      rw [taken] at after
      simp only [Bool.toNat_false, isThombstone, Nat.add_zero] at after
      rw [if_neg Bool.false_ne_true, after, exact]
  | true =>
      rw [taken] at after
      simp only [Bool.toNat_true, Bool.toNat_false, isThombstone, Nat.add_zero] at after
      rw [if_pos rfl, decrement_of_pos (by omega) small]
      omega

/-- A key that does not move keeps the counters exact. -/
theorem place_counts (value : V) (wf : d.Wf h) (healthy : d.Healthy h) {landing : Mode × Nat × Nat}
    (landed : d.Landed h key landing) (stays : landing.1 ≠ .moving) :
    (d.place key value landing).2.entriesCount = (d.place key value landing).2.buckets.countP isPresent ∧
      (d.place key value landing).2.thombstonesCount
        = (d.place key value landing).2.buckets.countP isThombstone ∧
      (d.place key value landing).2.entriesCount + (d.place key value landing).2.thombstonesCount
        ≤ d.entriesCount + d.thombstonesCount + 1 := by
  have room := healthy.room
  have fits := healthy.fits
  obtain ⟨mode, pos, first⟩ := landing
  have taken : ∀ inside : first < d.buckets.length,
      (if isThombstone (d.bucket first) = true then decrement d.thombstonesCount else d.thombstonesCount)
        = (d.buckets.set first (.present key value)).countP isThombstone :=
    fun inside => thombstones_taken inside (by omega) healthy.thombstones
  have atMost : ∀ inside : first < d.buckets.length,
      (if isThombstone (d.bucket first) = true then decrement d.thombstonesCount else d.thombstonesCount)
        ≤ d.thombstonesCount := by
    intro inside
    have after := count_thombstones_set (b := .present key value) inside
    have none : (isThombstone (.present key value)).toNat = 0 := rfl
    rw [taken inside, healthy.thombstones]
    omega
  cases mode with
  | moving => exact absurd rfl stays
  | inserting =>
      obtain ⟨⟨reaches, free⟩, -⟩ := landed
      have inside : first < d.size := lt_of_reaches wf reaches
      have after := count_set (b := .present key value) inside
      rw [isPresent_eq_false free] at after
      simp only [Bool.toNat_false, Nat.add_zero, isPresent, Bool.toNat_true] at after
      have next : (d.entriesCount + 1) % sizeBound = d.entriesCount + 1 := Nat.mod_eq_of_lt (by omega)
      have fewer := atMost inside
      simp only [place, next]
      refine ⟨?_, taken inside, by omega⟩
      rw [after, healthy.entries]
  | overwriting =>
      obtain ⟨-, k, v, found, -⟩ := landed
      have inside : first < d.size := lt_of_bucket (by simp [found])
      have after := count_set (b := .present key value) inside
      rw [found] at after
      simp only [isPresent, Bool.toNat_true, Nat.add_right_cancel_iff] at after
      have fewer := atMost inside
      simp only [place]
      refine ⟨?_, taken inside, by omega⟩
      rw [after, healthy.entries]

/-- A key that moves leaves a tombstone that is not counted. -/
theorem place_moving (value : V) (wf : d.Wf h) (healthy : d.Healthy h) {pos first : Nat}
    (landed : d.Landed h key (.moving, pos, first)) (isTombstone : d.bucket first = .thombstone) :
    (d.place key value (.moving, pos, first)).2.thombstonesCount + 1
      = (d.place key value (.moving, pos, first)).2.buckets.countP isThombstone := by
  have room := healthy.room
  have fits := healthy.fits
  obtain ⟨apart, ⟨reaches, -⟩, k, v, found, -⟩ := landed
  have inside : first < d.size := lt_of_reaches wf reaches
  have insidePos : pos < d.size := lt_of_bucket (by simp [found])
  have some' := one_le_thombstones inside isTombstone
  have left := count_thombstones_set (b := .thombstone) insidePos
  have insideLeft : first < (d.buckets.set pos .thombstone).length := List.length_set.symm ▸ inside
  have taken := count_thombstones_set (b := .present key value)
    (d := ⟨d.entriesCount, d.thombstonesCount, d.buckets.set pos .thombstone⟩) insideLeft
  rw [bucket_set insidePos, if_neg apart.symm, isTombstone] at taken
  rw [found] at left
  simp only [isThombstone, Bool.toNat_true, Bool.toNat_false, Nat.add_zero] at left taken
  have exact := healthy.thombstones
  simp only [place, isTombstone, isThombstone, if_true]
  rw [decrement_of_pos (by omega) (by omega)]
  omega

/-! ## One operation -/

theorem not_full_of_room (room : d.buckets.countP isPresent < d.size) : ¬ d.Full := by
  intro full
  rw [count_eq_size_of_full full] at room
  exact Nat.lt_irrefl _ room

/-- An insertion of a key that does not move succeeds, and keeps the counters exact. -/
theorem insertHere_healthy (value : V) (wf : d.Wf h) (healthy : d.Healthy h)
    (slack : d.entriesCount + d.thombstonesCount + 1 < d.size) (stays : ¬ d.Displaced h key) :
    ∃ inserted, d.insertHere h key value = some inserted ∧ inserted.2.Wf h ∧ inserted.2.Healthy h ∧
      inserted.2.size = d.size := by
  have room : d.buckets.countP isPresent < d.size := by
    rw [← healthy.entries]
    omega
  have succeeds : (d.insertHere h key value).isSome :=
    (insertHere_isSome_iff wf).mpr fun both => not_full_of_room room both.2
  obtain ⟨inserted, ran⟩ := Option.isSome_iff_exists.mp succeeds
  obtain ⟨landing, landed, same, -, moves⟩ := insertHere_ended wf ran
  have spec := insertHere_spec key wf value
  rw [ran] at spec
  obtain ⟨-, first, puts⟩ := spec
  have notMoving : landing.1 ≠ .moving := fun moving => stays (moves.mp moving)
  obtain ⟨entries, thombstones, atMost⟩ := place_counts value wf healthy landed notMoving
  rw [← same] at entries thombstones atMost
  have size := puts.size_eq
  refine ⟨inserted, ran, puts.wf wf, healthy_of_counts ?_ entries thombstones ?_, size⟩
  · rw [size]
    exact healthy.fits
  · rw [size]
    omega

/-- An insertion of a key that moves makes a counter wrong. -/
theorem insertHere_unhealthy (wf : d.Wf h) (healthy : d.Healthy h) (moves : d.Displaced h key)
    {inserted : Bool × Dict K V} (ran : d.insertHere h key value = some inserted) :
    ¬ inserted.2.Healthy h := by
  obtain ⟨landing, landed, same, ended, iff⟩ := insertHere_ended wf ran
  obtain ⟨mode, pos, first⟩ := landing
  have moving : mode = .moving := iff.mpr moves
  subst moving
  obtain ⟨-, -, -, -, -, -, isTombstone⟩ := ended
  have wrong := place_moving value wf healthy landed isTombstone
  rw [← same] at wrong
  intro stillHealthy
  have exact := stillHealthy.thombstones
  omega

/-- A table that is not overloaded has room for one more. -/
theorem slack_of_light {load size : Nat} (light : overloaded load size = false) (large : initSize ≤ size) :
    load + 1 < size := by
  have loadClose := (toFloat_close load).2
  have sizeClose := (toFloat_close size).1
  rw [overloaded, decide_eq_false_iff_not] at light
  simp only [initSize] at large
  omega

/-- What a dict that has grown is like. -/
theorem grown_healthy (key : K) (wf : d.Wf h) (healthy : d.Healthy h) (fits : d.size * 2 < sizeBound) {grown : Dict K V}
    (refilled : Refilled h d.size d.buckets grown) :
    grown.Healthy h ∧ grown.entriesCount + grown.thombstonesCount + 1 < grown.size ∧
      ¬ grown.Displaced h key := by
  have noTombstones : grown.buckets.countP isThombstone = 0 := by
    refine List.countP_eq_zero.mpr fun b member isTombstone => ?_
    obtain ⟨pos, inside, rfl⟩ := List.getElem_of_mem member
    have clean := refilled.clean pos
    rw [← getElem_eq_bucket inside] at clean
    cases atPos : grown.buckets[pos] with
    | thombstone => exact clean atPos
    | empty => rw [atPos] at isTombstone; cases isTombstone
    | present k v => rw [atPos] at isTombstone; cases isTombstone
  have room := healthy.room
  have size := refilled.size_eq
  have entries : grown.entriesCount = d.buckets.countP isPresent := by
    rw [refilled.wf.counted, refilled.counts]
    refine Nat.mod_eq_of_lt ?_
    have exact := healthy.entries
    have small := healthy.fits
    omega
  have exact := healthy.entries
  have none := refilled.uncounted
  refine ⟨healthy_of_counts (by omega) (entries.trans refilled.counts.symm) (none.trans noTombstones.symm) ?_, ?_, ?_⟩
  · omega
  · omega
  · intro displaced
    obtain ⟨i, -, -, -, isTombstone, -⟩ := displaced
    exact refilled.clean _ isTombstone

theorem insert_healthy (value : V) (wf : d.Wf h) (healthy : d.Healthy h) (large : initSize ≤ d.size) (bound : Nat)
    (steady : d.Steady h key) : ∃ inserted, d.insert h (bound + 1) key value = some inserted ∧
      inserted.2.Wf h ∧ inserted.2.Healthy h ∧ initSize ≤ inserted.2.size := by
  have room := healthy.room
  have fits := healthy.fits
  have sum : (d.entriesCount + d.thombstonesCount) % sizeBound = d.entriesCount + d.thombstonesCount :=
    Nat.mod_eq_of_lt (by omega)
  rw [Steady] at steady
  rw [insert, insertWith]
  by_cases heavy : overloaded ((d.entriesCount + d.thombstonesCount) % sizeBound) d.size = true
  · rw [if_pos heavy] at steady ⊢
    obtain ⟨grown, grew, refilled⟩ := growAndRehash_spec wf bound
    obtain ⟨healthy', slack, stays⟩ := grown_healthy key wf healthy steady refilled
    obtain ⟨inserted, ran, wf', healthyAfter, size⟩ :=
      insertHere_healthy value refilled.wf healthy' slack stays
    refine ⟨inserted, ?_, wf', healthyAfter, ?_⟩
    · rw [grew, Option.bind_some, ran]
    · rw [size, refilled.size_eq]
      omega
  · rw [if_neg heavy] at steady ⊢
    have slack := slack_of_light (Bool.eq_false_of_not_eq_true heavy) large
    rw [sum] at slack
    obtain ⟨inserted, ran, wf', healthyAfter, size⟩ := insertHere_healthy value wf healthy slack steady
    exact ⟨inserted, ran, wf', healthyAfter, size ▸ large⟩

/-- What an insertion leaves is not healthy if the dict was not steady. -/
theorem insert_unhealthy (wf : d.Wf h) (healthy : d.Healthy h) (bound : Nat) (unsteady : ¬ d.Steady h key)
    {inserted : Bool × Dict K V} (ran : d.insert h (bound + 1) key value = some inserted) :
    ¬ inserted.2.Healthy h := by
  rw [Steady] at unsteady
  rw [insert, insertWith] at ran
  by_cases heavy : overloaded ((d.entriesCount + d.thombstonesCount) % sizeBound) d.size = true
  · rw [if_pos heavy] at unsteady ran
    obtain ⟨grown, grew, refilled⟩ := growAndRehash_spec wf bound
    rw [grew, Option.bind_some] at ran
    have spec := insertHere_spec key refilled.wf value
    rw [ran] at spec
    obtain ⟨-, first, puts⟩ := spec
    intro stillHealthy
    have fits := stillHealthy.fits
    rw [puts.size_eq, refilled.size_eq] at fits
    exact unsteady fits
  · rw [if_neg heavy] at unsteady ran
    exact insertHere_unhealthy wf healthy (not_not.mp unsteady) ran

theorem remove_healthy (key : K) (wf : d.Wf h) (healthy : d.Healthy h) :
    (d.remove h key).2.Healthy h ∧ (d.remove h key).2.size = d.size := by
  have room := healthy.room
  have fits := healthy.fits
  have spec := findPos_spec h d key wf
  rw [remove]
  cases found : d.findPos h key with
  | none => exact ⟨healthy, rfl⟩
  | some pos =>
      rw [found] at spec
      obtain ⟨k, v, atPos, -⟩ := spec
      have inside : pos < d.size := lt_of_bucket (by simp [atPos])
      have some' := one_le_count atPos
      have entries := count_set (b := .thombstone) inside
      have thombstones := count_thombstones_set (b := .thombstone) inside
      rw [atPos] at entries thombstones
      simp only [isPresent, isThombstone, Bool.toNat_true, Bool.toNat_false, Nat.add_zero] at entries thombstones
      have exact := healthy.entries
      have exact' := healthy.thombstones
      have size : (d.buckets.set pos .thombstone).length = d.size := List.length_set
      have fewer : decrement d.entriesCount = d.entriesCount - 1 := decrement_of_pos (by omega) (by omega)
      have more : (d.thombstonesCount + 1) % sizeBound = d.thombstonesCount + 1 := Nat.mod_eq_of_lt (by omega)
      refine ⟨healthy_of_counts ?_ ?_ ?_ ?_, size⟩
      · change (d.buckets.set pos .thombstone).length < sizeBound
        rw [size]
        exact fits
      · change decrement d.entriesCount = (d.buckets.set pos .thombstone).countP isPresent
        rw [fewer]
        omega
      · change (d.thombstonesCount + 1) % sizeBound = (d.buckets.set pos .thombstone).countP isThombstone
        rw [more]
        omega
      · change decrement d.entriesCount + (d.thombstonesCount + 1) % sizeBound < (d.buckets.set pos .thombstone).length
        rw [fewer, more, size]
        omega

theorem remove_wf (key : K) (wf : d.Wf h) : (d.remove h key).2.Wf h := by
  have spec := findPos_spec h d key wf
  rw [remove]
  cases found : d.findPos h key with
  | none => exact wf
  | some pos =>
      rw [found] at spec
      obtain ⟨k, v, atPos, -⟩ := spec
      exact (remove_drops wf atPos).wf wf

theorem healthy_replicate {size : Nat} (positive : 0 < size) (fits : size < sizeBound) :
    (⟨0, 0, List.replicate size .empty⟩ : Dict K V).Healthy h := by
  have none : (List.replicate size (Bucket.empty : Bucket K V)).countP isThombstone = 0 := by
    simp [List.countP_replicate, isThombstone]
  have length : (⟨0, 0, List.replicate size .empty⟩ : Dict K V).size = size := List.length_replicate
  refine healthy_of_counts ?_ count_replicate.symm none.symm ?_
  · rw [length]
    exact fits
  · rw [length]
    exact positive

end Dict

/-! ## Runs -/

section Runs
variable {K V : Type} (h : Hashing K)

/-- Along a run every request is served, and all dicts are healthy in every state. -/
def HealthyAll (bound : Nat) : List (Request K V) → List (Dict K V) → Prop
  | [], dicts => ∀ d ∈ dicts, d.Healthy h
  | request :: rest, dicts => (∀ d ∈ dicts, d.Healthy h) ∧
      ∃ served, serve h bound dicts request = some served ∧ HealthyAll bound rest served.2

/-- The key of an insertion does not move, and a dict that has to grow for it can. -/
def SteadyFor (dicts : List (Dict K V)) : Request K V → Prop
  | .insert i key _ => ∀ d, dicts[i]? = some d → d.Steady h key
  | _ => True

/-- The same for every step of a run, for as long as it goes on. -/
def SteadyAll (bound : Nat) : List (Request K V) → List (Dict K V) → Prop
  | [], _ => True
  | request :: rest, dicts =>
      SteadyFor h dicts request ∧ ∀ served, serve h bound dicts request = some served →
        SteadyAll bound rest served.2

variable {h} {bound : Nat} {dicts : List (Dict K V)}

/-- What every state of a run that stays healthy is like. -/
def Sound (h : Hashing K) (d : Dict K V) : Prop := d.Wf h ∧ d.Healthy h ∧ Dict.initSize ≤ d.size

theorem forall_mem_set {i : Nat} {d' : Dict K V} {P : Dict K V → Prop} (all : ∀ d ∈ dicts, P d) (new : P d') :
    ∀ d ∈ dicts.set i d', P d := by
  intro d member
  cases List.mem_or_eq_of_mem_set member with
  | inl old => exact all d old
  | inr same => exact same ▸ new

/-- A steady request is served, and leaves sound dicts. -/
theorem serve_sound (bound : Nat) {request : Request K V} (sound : ∀ d ∈ dicts, Sound h d) (steady : SteadyFor h dicts request) :
    ∃ served, serve h (bound + 1) dicts request = some served ∧ ∀ d ∈ served.2, Sound h d := by
  cases atDict : dicts[request.dict]? with
  | none => exact ⟨_, serve_missing atDict, sound⟩
  | some d =>
      obtain ⟨wf, healthy, large⟩ := sound d (List.mem_of_getElem? atDict)
      cases request with
      | insert i key value =>
          simp only [Request.dict] at atDict
          obtain ⟨inserted, ran, after⟩ :=
            Dict.insert_healthy value wf healthy large bound (steady d atDict)
          refine ⟨(.inserted inserted.1, dicts.set i inserted.2), ?_, forall_mem_set sound after⟩
          simp only [serve, atDict, ran, Option.map_some]
      | remove i key =>
          simp only [Request.dict] at atDict
          obtain ⟨healthy', size⟩ := Dict.remove_healthy key wf healthy
          have after : Sound h (d.remove h key).2 := ⟨Dict.remove_wf key wf, healthy', by rw [size]; exact large⟩
          refine ⟨(.removed (d.remove h key).1, dicts.set i (d.remove h key).2), ?_, forall_mem_set sound after⟩
          simp only [serve, atDict]
      | find i key =>
          simp only [Request.dict] at atDict
          refine ⟨(.found (d.find h key), dicts), ?_, sound⟩
          simp only [serve, atDict]
      | clone i =>
          simp only [Request.dict] at atDict
          refine ⟨(.nothing, dicts ++ [d.clone]), by simp only [serve, atDict], fun d' member => ?_⟩
          cases List.mem_append.mp member with
          | inl old => exact sound d' old
          | inr new => exact List.mem_singleton.mp new ▸ ⟨wf, healthy, large⟩
      | clear i =>
          simp only [Request.dict] at atDict
          have cleared : Sound h d.clear := by
            refine ⟨Dict.wf_replicate wf.nonempty, Dict.healthy_replicate wf.nonempty healthy.fits, ?_⟩
            change Dict.initSize ≤ (List.replicate d.size Bucket.empty).length
            rw [List.length_replicate]
            exact large
          refine ⟨(.nothing, dicts.set i d.clear), ?_, forall_mem_set sound cleared⟩
          simp only [serve, atDict]
      | iterate i =>
          simp only [Request.dict] at atDict
          refine ⟨(.visited d.entries, dicts), ?_, sound⟩
          simp only [serve, atDict]

/-- A request that is not steady leaves a dict that is not healthy, if it is served at all. -/
theorem serve_unhealthy {request : Request K V} (sound : ∀ d ∈ dicts, Sound h d)
    (unsteady : ¬ SteadyFor h dicts request) {served : Answer K V × List (Dict K V)}
    (ran : serve h (bound + 1) dicts request = some served) : ¬ ∀ d ∈ served.2, d.Healthy h := by
  cases request with
  | insert i key value =>
      rw [SteadyFor] at unsteady
      push Not at unsteady
      obtain ⟨d, atDict, unsteady⟩ := unsteady
      obtain ⟨wf, healthy, -⟩ := sound d (List.mem_of_getElem? atDict)
      simp only [serve, atDict, Option.map_eq_some_iff] at ran
      obtain ⟨inserted, inserts, rfl⟩ := ran
      intro all
      refine Dict.insert_unhealthy wf healthy bound unsteady inserts (all inserted.2 ?_)
      exact List.mem_set (List.getElem?_eq_some_iff.mp atDict).1 _
  | remove i key => exact absurd trivial unsteady
  | find i key => exact absurd trivial unsteady
  | clone i => exact absurd trivial unsteady
  | clear i => exact absurd trivial unsteady
  | iterate i => exact absurd trivial unsteady

theorem healthyAll_head {requests : List (Request K V)} (all : HealthyAll h bound requests dicts) :
    ∀ d ∈ dicts, d.Healthy h := by
  cases requests with
  | nil => exact all
  | cons request rest => exact all.1

theorem healthyAll_iff (requests : List (Request K V)) : ∀ dicts : List (Dict K V), (∀ d ∈ dicts, Sound h d) →
    (HealthyAll h (bound + 1) requests dicts ↔ SteadyAll h (bound + 1) requests dicts) := by
  induction requests with
  | nil => exact fun dicts sound => iff_of_true (fun d member => (sound d member).2.1) trivial
  | cons request rest ih =>
      intro dicts sound
      constructor
      · intro healthy
        obtain ⟨-, served, ran, later⟩ := healthy
        have steady : SteadyFor h dicts request := by
          by_contra unsteady
          exact serve_unhealthy sound unsteady ran (healthyAll_head later)
        obtain ⟨served', ran', sound'⟩ := serve_sound bound sound steady
        rw [ran] at ran'
        cases ran'
        refine ⟨steady, fun served' ran' => ?_⟩
        rw [ran] at ran'
        cases ran'
        exact (ih served.2 sound').mp later
      · intro steady
        obtain ⟨served, ran, sound'⟩ := serve_sound bound sound steady.1
        refine ⟨fun d member => (sound d member).2.1, served, ran, ?_⟩
        exact (ih served.2 sound').mpr (steady.2 served ran)

end Runs

/-- In every sequence of requests, the counters are exact in every state, every walk meets an
    unused bucket and every insertion finds a bucket, if and only if no insertion into a dict
    that need not grow finds its key behind a tombstone. -/
theorem counters_exact_iff_steady {K V : Type} (h : Hashing K) (bound : Nat) (requests : List (Request K V)) :
    HealthyAll h (bound + 1) requests [Dict.newDict] ↔ SteadyAll h (bound + 1) requests [Dict.newDict] := by
  refine healthyAll_iff requests _ fun d member => ?_
  rw [List.mem_singleton.mp member]
  refine ⟨Dict.wf_replicate (by decide), Dict.healthy_replicate (by decide) (by decide), ?_⟩
  exact List.length_replicate.ge

/-- Two keys with the same place in the table, the second of which moves. -/
def moveOnce : List (Request Nat Unit) :=
  [.insert 0 0 (), .insert 0 32 (), .remove 0 0, .insert 0 32 ()]

set_option maxRecDepth 100000 in
/-- After the move a tombstone is there that is not counted. -/
theorem moveOnce_counts : (serveAll plainHashing 2 moveOnce [Dict.newDict]).map (fun run =>
    run.2.map fun d => (d.thombstonesCount, d.buckets.countP Dict.isThombstone)) = some [(0, 1)] := by
  decide +kernel

/-- A run that stays healthy ends in healthy dicts. -/
theorem healthyAll_last {K V : Type} {h : Hashing K} {bound : Nat} (requests : List (Request K V)) :
    ∀ dicts, HealthyAll h bound requests dicts →
      ∃ run, serveAll h bound requests dicts = some run ∧ ∀ d ∈ run.2, d.Healthy h := by
  induction requests with
  | nil => exact fun dicts healthy => ⟨([], dicts), rfl, healthy⟩
  | cons request rest ih =>
      intro dicts healthy
      obtain ⟨-, served, ran, later⟩ := healthy
      obtain ⟨run, ranRest, last⟩ := ih served.2 later
      refine ⟨(served.1 :: run.1, run.2), ?_, last⟩
      rw [serveAll, ran, Option.bind_some, ranRest, Option.map_some]

theorem moveOnce_miscounts : ¬ HealthyAll plainHashing 2 moveOnce [Dict.newDict] := by
  intro healthy
  obtain ⟨run, ran, last⟩ := healthyAll_last moveOnce _ healthy
  have counts := moveOnce_counts
  rw [ran, Option.map_some, Option.some.injEq] at counts
  have one : run.2.length = 1 := by rw [← List.length_map, counts]; rfl
  obtain ⟨d, dicts⟩ := List.length_eq_one_iff.mp one
  rw [dicts] at counts last
  simp only [List.map_cons, List.map_nil, List.cons.injEq, Prod.mk.injEq, and_true] at counts
  have exact := (last d List.mem_cons_self).thombstones
  omega

end Shady.Common
