import Shady.Common.DictWalks

/-!
# Dicts are finite maps

Every operation on a dict does to its table what it should do to a finite map, but for an
insertion that finds each bucket in use. The load that is checked before an insertion does
not exclude this, since a key that moves leaves a tombstone that is not counted.
-/

set_option autoImplicit false

namespace Shady.Common

/-- What is known of a key: the equal key that was put last, and its value. -/
abbrev Table (K V : Type) : Type := K → Option (K × V)

namespace Table
variable {K V : Type} (h : Hashing K) (m : Table K V)

def empty : Table K V := fun _ => none

def insert (key : K) (value : V) : Table K V :=
  fun q => if h.cmp key q then some (key, value) else m q

def remove (key : K) : Table K V := fun q => if h.cmp key q then none else m q

/-- Each entry once, and nothing else. -/
structure Lists (entries : List (K × V)) : Prop where
  sound : ∀ e ∈ entries, m e.1 = some e
  complete : ∀ q e, m q = some e → e ∈ entries
  once : entries.Pairwise fun a b => h.cmp a.1 b.1 = false

end Table

namespace Dict
variable {K V : Type} {h : Hashing K} {d d' : Dict K V} {key : K} {value : V} {m : Table K V}

/-- The table is what the buckets hold. -/
def Represents (h : Hashing K) (d : Dict K V) (m : Table K V) : Prop :=
  ∀ q k v, m q = some (k, v) ↔ (∃ pos, d.bucket pos = .present k v) ∧ h.cmp k q = true

/-! ## One bucket changes -/

theorem bucket_set {pos pos' : Nat} {b : Bucket K V} {entries thombstones : Nat} (inside : pos < d.size) :
    (⟨entries, thombstones, d.buckets.set pos b⟩ : Dict K V).bucket pos'
      = if pos' = pos then b else d.bucket pos' := by
  simp only [bucket]
  by_cases same : pos' = pos
  · rw [same, if_pos rfl, List.getElem?_set_self inside]
    rfl
  · rw [if_neg same, List.getElem?_set_ne (Ne.symm same)]

theorem absent_iff (represents : d.Represents h m) : d.Absent h key ↔ m key = none := by
  constructor
  · intro absent
    cases known : m key with
    | none => rfl
    | some e =>
        obtain ⟨⟨pos, found⟩, equal⟩ := (represents key e.1 e.2).mp known
        rw [absent pos e.1 e.2 found] at equal
        cases equal
  · intro unknown pos k v found
    by_contra equal
    have known := (represents key k v).mpr ⟨⟨pos, found⟩, Bool.eq_true_of_not_eq_false equal⟩
    rw [unknown] at known
    cases known

/-- A dict in which the key was put somewhere on its walk, and nowhere else any more. -/
structure Puts (h : Hashing K) (d d' : Dict K V) (key : K) (value : V) (first : Nat) : Prop where
  size_eq : d'.size = d.size
  reaches : d.Reaches h key first
  put : d'.bucket first = .present key value
  others : ∀ pos, pos ≠ first → ∀ k v,
    d'.bucket pos = .present k v ↔ d.bucket pos = .present k v ∧ h.cmp k key = false
  replaced : ∀ k v, d.bucket first = .present k v → h.cmp k key = true
  used : ∀ pos, d.bucket pos ≠ .empty → d'.bucket pos ≠ .empty
  counted : d'.entriesCount = d'.buckets.countP isPresent % sizeBound

/-- A bucket is still reached when no bucket has become unused. -/
theorem reaches_of {pos : Nat} {k : K} (size_eq : d'.size = d.size)
    (used : ∀ pos, d.bucket pos ≠ .empty → d'.bucket pos ≠ .empty) (reaches : d.Reaches h k pos) :
    d'.Reaches h k pos := by
  obtain ⟨i, inside, place, passed⟩ := reaches
  have same : ∀ j, d'.probe (d'.initPos h k) j = d.probe (d.initPos h k) j := by
    intro j
    simp only [probe, initPos, size_eq]
    rfl
  exact ⟨i, size_eq ▸ inside, (same i).symm ▸ place,
    fun j before => (same j).symm ▸ used _ (passed j before)⟩

theorem Puts.wf {first : Nat} (wf : d.Wf h) (puts : Puts h d d' key value first) : d'.Wf h where
  nonempty := puts.size_eq ▸ wf.nonempty
  counted := puts.counted
  reached pos k v found := by
    by_cases here : pos = first
    · rw [here, puts.put] at found
      cases found
      exact here ▸ reaches_of puts.size_eq puts.used puts.reaches
    · exact reaches_of puts.size_eq puts.used (wf.reached pos k v ((puts.others pos here k v).mp found).1)
  distinct pos pos' k v k' v' found found' equal := by
    by_cases here : pos = first
    · by_cases here' : pos' = first
      · rw [here, here']
      · rw [here, puts.put] at found
        cases found
        have other := ((puts.others pos' here' k' v').mp found').2
        rw [h.symm key k' equal] at other
        cases other
    · by_cases here' : pos' = first
      · rw [here', puts.put] at found'
        cases found'
        have other := ((puts.others pos here k v).mp found).2
        rw [equal] at other
        cases other
      · exact wf.distinct pos pos' k v k' v' ((puts.others pos here k v).mp found).1
          ((puts.others pos' here' k' v').mp found').1 equal

theorem Puts.represents {first : Nat} (puts : Puts h d d' key value first)
    (represents : d.Represents h m) : d'.Represents h (m.insert h key value) := by
  intro q k v
  rw [Table.insert]
  by_cases asked : h.cmp key q = true
  · rw [if_pos asked]
    constructor
    · intro same
      cases same
      exact ⟨⟨first, puts.put⟩, asked⟩
    · rintro ⟨⟨pos, found⟩, equal⟩
      by_cases here : pos = first
      · rw [here, puts.put] at found
        cases found
        rfl
      · have other := ((puts.others pos here k v).mp found).2
        rw [h.trans k q key equal (h.symm key q asked)] at other
        cases other
  · rw [if_neg asked, represents q k v]
    constructor
    · rintro ⟨⟨pos, found⟩, equal⟩
      have other : h.cmp k key = false := by
        by_contra same
        exact asked (h.trans key k q (h.symm k key (Bool.eq_true_of_not_eq_false same)) equal)
      have apart : pos ≠ first := by
        rintro rfl
        rw [puts.replaced k v found] at other
        cases other
      exact ⟨⟨pos, (puts.others pos apart k v).mpr ⟨found, other⟩⟩, equal⟩
    · rintro ⟨⟨pos, found⟩, equal⟩
      have apart : pos ≠ first := by
        rintro rfl
        rw [puts.put] at found
        cases found
        exact asked equal
      exact ⟨⟨pos, ((puts.others pos apart k v).mp found).1⟩, equal⟩

theorem lt_of_reaches {pos : Nat} (wf : d.Wf h) (reaches : d.Reaches h key pos) : pos < d.size := by
  obtain ⟨i, inside, rfl, -⟩ := reaches
  have start : d.initPos h key < d.size := initPos_lt wf.nonempty
  rw [probe]
  split <;> omega

theorem getElem_eq_bucket {pos : Nat} (inside : pos < d.buckets.length) :
    d.buckets[pos] = d.bucket pos := by
  rw [bucket, List.getElem?_eq_getElem inside]
  rfl

theorem one_le_count {pos : Nat} {k : K} {v : V} (found : d.bucket pos = .present k v) :
    1 ≤ d.buckets.countP isPresent := by
  refine List.countP_pos_iff.mpr ⟨.present k v, mem_buckets_iff.mpr ⟨pos, found⟩, rfl⟩

/-- One bucket changes, and with it the number of keys. -/
theorem count_set {pos : Nat} {b : Bucket K V} (inside : pos < d.buckets.length) :
    (d.buckets.set pos b).countP isPresent + (isPresent (d.bucket pos)).toNat
      = d.buckets.countP isPresent + (isPresent b).toNat := by
  rw [List.countP_set inside, getElem_eq_bucket inside]
  cases before : d.bucket pos with
  | empty => cases b <;> simp [isPresent]
  | thombstone => cases b <;> simp [isPresent]
  | present k v =>
      have atLeastOne := one_le_count before
      cases b <;> simp [isPresent] <;> omega

theorem isPresent_eq_false {b : Bucket K V} (keyless : ∀ k v, b ≠ .present k v) :
    isPresent b = false := by
  cases b with
  | empty => rfl
  | thombstone => rfl
  | present k v => exact absurd rfl (keyless k v)

/-- The three ways an insertion ends all put the key. -/
theorem puts_place (value : V) (wf : d.Wf h) {landing : Mode × Nat × Nat} (landed : d.Landed h key landing) :
    Puts h d (d.place key value landing).2 key value landing.2.2 ∧
      ((d.place key value landing).1 = true ↔ d.Absent h key) := by
  obtain ⟨mode, pos, first⟩ := landing
  cases mode with
  | inserting =>
      obtain ⟨⟨reaches, free⟩, absent⟩ := landed
      have inside : first < d.size := lt_of_reaches wf reaches
      refine ⟨⟨List.length_set, reaches, ?_, ?_, ?_, ?_, ?_⟩, fun _ => absent, fun _ => rfl⟩
      · rw [place, bucket_set inside, if_pos rfl]
      · intro pos' other k v
        rw [place, bucket_set inside, if_neg other]
        exact ⟨fun found => ⟨found, absent pos' k v found⟩, fun found => found.1⟩
      · exact fun k v found => absurd found (free k v)
      · intro pos' used
        rw [place, bucket_set inside]
        split
        · nofun
        · exact used
      · have before := wf.counted
        change (d.entriesCount + 1) % sizeBound
          = (d.buckets.set first (.present key value)).countP isPresent % sizeBound
        have after := count_set (b := .present key value) inside
        rw [isPresent_eq_false free] at after
        simp only [Bool.toNat_false, Nat.add_zero, isPresent, Bool.toNat_true] at after
        rw [after, before, Nat.mod_add_mod]
  | overwriting =>
      obtain ⟨same, k₀, v₀, found₀, equal₀⟩ := landed
      have inside : first < d.size := lt_of_bucket (by rw [found₀]; nofun)
      have reaches : d.Reaches h key first := by
        have before := wf.reached first k₀ v₀ found₀
        rwa [Reaches, initPos_eq equal₀] at before
      refine ⟨⟨List.length_set, reaches, ?_, ?_, ?_, ?_, ?_⟩, nofun, ?_⟩
      · rw [place, bucket_set inside, if_pos rfl]
      · intro pos' other k v
        rw [place, bucket_set inside, if_neg other]
        refine ⟨fun found => ⟨found, ?_⟩, fun found => found.1⟩
        by_contra equal
        refine other (wf.distinct pos' first k v k₀ v₀ found found₀ ?_)
        exact h.trans k key k₀ (Bool.eq_true_of_not_eq_false equal) (h.symm k₀ key equal₀)
      · intro k v found
        rw [found₀] at found
        cases found
        exact equal₀
      · intro pos' used
        rw [place, bucket_set inside]
        split
        · nofun
        · exact used
      · have before := wf.counted
        change d.entriesCount = (d.buckets.set first (.present key value)).countP isPresent % sizeBound
        have after := count_set (b := .present key value) inside
        rw [found₀] at after
        simp only [isPresent, Bool.toNat_true, Nat.add_right_cancel_iff] at after
        rw [after, before]
      · intro absent
        rw [absent first k₀ v₀ found₀] at equal₀
        cases equal₀
  | moving =>
      obtain ⟨apart, ⟨reaches, free⟩, k₀, v₀, found₀, equal₀⟩ := landed
      have inside : first < d.size := lt_of_reaches wf reaches
      have inside₀ : pos < d.size := lt_of_bucket (by rw [found₀]; nofun)
      have buckets : ∀ pos', (d.place key value (.moving, pos, first)).2.bucket pos'
          = if pos' = first then .present key value else if pos' = pos then .thombstone
            else d.bucket pos' := by
        intro pos'
        have moved : (⟨d.entriesCount, d.thombstonesCount, d.buckets.set pos .thombstone⟩ : Dict K V).size
            = d.size := List.length_set
        rw [place]
        refine (bucket_set (d := ⟨d.entriesCount, d.thombstonesCount, d.buckets.set pos .thombstone⟩)
          (moved ▸ inside)).trans ?_
        rw [bucket_set inside₀]
      refine ⟨⟨?_, reaches, ?_, ?_, ?_, ?_, ?_⟩, nofun, ?_⟩
      · exact List.length_set.trans List.length_set
      · rw [buckets, if_pos rfl]
      · intro pos' other k v
        rw [buckets, if_neg other]
        by_cases here : pos' = pos
        · rw [if_pos here, here, found₀]
          refine ⟨nofun, fun found => ?_⟩
          cases found.1
          rw [equal₀] at found
          cases found.2
        · rw [if_neg here]
          refine ⟨fun found => ⟨found, ?_⟩, fun found => found.1⟩
          by_contra equal
          refine here (wf.distinct pos' pos k v k₀ v₀ found found₀ ?_)
          exact h.trans k key k₀ (Bool.eq_true_of_not_eq_false equal) (h.symm k₀ key equal₀)
      · exact fun k v found => absurd found (free k v)
      · intro pos' used
        rw [buckets]
        split
        · nofun
        · split
          · nofun
          · exact used
      · have before := wf.counted
        change d.entriesCount
          = ((d.buckets.set pos .thombstone).set first (.present key value)).countP isPresent % sizeBound
        have cleared := count_set (b := .thombstone) inside₀
        have inside' : first < (d.buckets.set pos .thombstone).length := List.length_set.symm ▸ inside
        have after := count_set (b := .present key value)
          (d := ⟨d.entriesCount, d.thombstonesCount, d.buckets.set pos .thombstone⟩) inside'
        rw [bucket_set inside₀, if_neg apart.symm, isPresent_eq_false free] at after
        rw [found₀] at cleared
        simp only [isPresent, Bool.toNat_true, Bool.toNat_false, Nat.add_zero] at after cleared
        rw [after, cleared, before]
      · intro absent
        rw [absent pos k₀ v₀ found₀] at equal₀
        cases equal₀

/-! ## Lookups and removals -/

theorem find_eq (wf : d.Wf h) (represents : d.Represents h m) : d.find h key = m key := by
  have spec := findPos_spec h d key wf
  rw [find]
  cases found : d.findPos h key with
  | none =>
      rw [found] at spec
      exact ((absent_iff represents).mp spec).symm
  | some pos =>
      rw [found] at spec
      obtain ⟨k, v, atPos, equal⟩ := spec
      rw [Option.bind_some, atPos]
      exact ((represents key k v).mpr ⟨⟨pos, atPos⟩, equal⟩).symm

theorem decrement_succ {count : Nat} : decrement ((count + 1) % sizeBound) = count % sizeBound := by
  rw [decrement, sizeBound]
  omega

/-- A dict in which one bucket with a key has become a tombstone. -/
structure Drops (d d' : Dict K V) (pos : Nat) : Prop where
  size_eq : d'.size = d.size
  bucket_eq : ∀ pos', d'.bucket pos' = if pos' = pos then .thombstone else d.bucket pos'
  counted : d'.entriesCount = d'.buckets.countP isPresent % sizeBound

theorem Drops.kept {pos pos' : Nat} {k : K} {v : V} (drops : Drops d d' pos) :
    d'.bucket pos' = .present k v ↔ pos' ≠ pos ∧ d.bucket pos' = .present k v := by
  rw [drops.bucket_eq]
  by_cases here : pos' = pos
  · rw [if_pos here]
    exact ⟨nofun, fun apart => absurd here apart.1⟩
  · rw [if_neg here]
    exact ⟨fun found => ⟨here, found⟩, fun found => found.2⟩

theorem Drops.wf {pos : Nat} (wf : d.Wf h) (drops : Drops d d' pos) : d'.Wf h where
  nonempty := drops.size_eq ▸ wf.nonempty
  counted := drops.counted
  reached pos' k v found := by
    refine reaches_of drops.size_eq ?_ (wf.reached pos' k v (drops.kept.mp found).2)
    intro other used
    rw [drops.bucket_eq]
    split
    · nofun
    · exact used
  distinct pos₁ pos₂ k v k' v' found₁ found₂ equal :=
    wf.distinct pos₁ pos₂ k v k' v' (drops.kept.mp found₁).2 (drops.kept.mp found₂).2 equal

theorem Drops.represents {pos : Nat} {k₀ : K} {v₀ : V} (wf : d.Wf h) (drops : Drops d d' pos)
    (found₀ : d.bucket pos = .present k₀ v₀) (equal₀ : h.cmp k₀ key = true)
    (represents : d.Represents h m) : d'.Represents h (m.remove h key) := by
  intro q k v
  rw [Table.remove]
  by_cases asked : h.cmp key q = true
  · rw [if_pos asked]
    refine ⟨nofun, fun here => ?_⟩
    obtain ⟨⟨pos', atPos⟩, equal⟩ := here
    obtain ⟨apart, before⟩ := drops.kept.mp atPos
    refine absurd (wf.distinct pos' pos k v k₀ v₀ before found₀ ?_) apart
    exact h.trans k q k₀ equal (h.trans q key k₀ (h.symm key q asked) (h.symm k₀ key equal₀))
  · rw [if_neg asked, represents q k v]
    constructor
    · intro here
      obtain ⟨⟨pos', atPos⟩, equal⟩ := here
      have apart : pos' ≠ pos := by
        intro same
        rw [same, found₀] at atPos
        cases atPos
        exact asked (h.trans key k₀ q (h.symm k₀ key equal₀) equal)
      exact ⟨⟨pos', drops.kept.mpr ⟨apart, atPos⟩⟩, equal⟩
    · intro here
      obtain ⟨⟨pos', atPos⟩, equal⟩ := here
      exact ⟨⟨pos', (drops.kept.mp atPos).2⟩, equal⟩

/-- A key that is not there is not there after its removal either. -/
theorem remove_absent (represents : d.Represents h m) (absent : d.Absent h key) :
    d.Represents h (m.remove h key) := by
  intro q k v
  rw [Table.remove]
  by_cases asked : h.cmp key q = true
  · rw [if_pos asked]
    refine ⟨nofun, fun here => ?_⟩
    obtain ⟨⟨pos, atPos⟩, equal⟩ := here
    have other := absent pos k v atPos
    rw [h.trans k q key equal (h.symm key q asked)] at other
    cases other
  · rw [if_neg asked]
    exact represents q k v

theorem remove_drops {pos : Nat} {k : K} {v : V} (wf : d.Wf h) (found : d.bucket pos = .present k v) :
    Drops d ⟨decrement d.entriesCount, (d.thombstonesCount + 1) % sizeBound,
      d.buckets.set pos .thombstone⟩ pos := by
  have inside : pos < d.size := lt_of_bucket (by rw [found]; nofun)
  refine ⟨List.length_set, fun pos' => bucket_set inside, ?_⟩
  have after := count_set (b := .thombstone) inside
  rw [found] at after
  simp only [isPresent, Bool.toNat_true, Bool.toNat_false, Nat.add_zero] at after
  change decrement d.entriesCount = (d.buckets.set pos .thombstone).countP isPresent % sizeBound
  rw [wf.counted, ← after, decrement_succ]

theorem remove_spec (key : K) (wf : d.Wf h) (represents : d.Represents h m) :
    (d.remove h key).1 = (m key).isSome ∧ (d.remove h key).2.Wf h ∧
      (d.remove h key).2.Represents h (m.remove h key) := by
  have spec := findPos_spec h d key wf
  rw [remove]
  cases found : d.findPos h key with
  | none =>
      rw [found] at spec
      have unknown := (absent_iff represents).mp spec
      refine ⟨?_, wf, remove_absent represents spec⟩
      rw [unknown]
      rfl
  | some pos =>
      rw [found] at spec
      obtain ⟨k₀, v₀, found₀, equal₀⟩ := spec
      have drops := remove_drops wf found₀
      refine ⟨?_, drops.wf wf, drops.represents wf found₀ equal₀ represents⟩
      rw [(represents key k₀ v₀).mpr ⟨⟨pos, found₀⟩, equal₀⟩]
      rfl

end Dict

end Shady.Common
