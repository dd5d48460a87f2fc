import Shady.Common.DictExact

/-!
# A dict that grows keeps its keys

The keys of a dict that is overloaded are inserted again into an unused table of twice the
size. No assertion fails on the way, none of these insertions makes the dict grow again,
and the grown dict holds what the old one held.
-/

set_option autoImplicit false

namespace Shady.Common

section Rounding

theorem pow_log2_sub_le {n : Nat} (large : 2 ^ 23 ≤ n) : 2 ^ (n.log2 - 23) * 2 ^ 23 ≤ n := by
  have positive : n ≠ 0 := by omega
  have atLeast : 23 ≤ n.log2 := (Nat.le_log2 positive).mpr large
  rw [← Nat.pow_add, Nat.sub_add_cancel atLeast]
  exact Nat.log2_self_le positive

theorem toFloat_of_small {n : Nat} (small : n < 2 ^ 24) : toFloat n = n := by
  have exponent : n.log2 - 23 = 0 := by
    by_cases positive : n = 0
    · rw [positive]
      rfl
    · have below := (Nat.log2_lt positive).mpr small
      omega
  simp [toFloat, exponent, Nat.mod_one]

/-- A `float` is off by less than one part in 2 ^ 23. -/
theorem toFloat_close (n : Nat) :
    2 ^ 23 * toFloat n ≤ (2 ^ 23 + 1) * n ∧ (2 ^ 23 - 1) * n ≤ 2 ^ 23 * toFloat n := by
  by_cases small : n < 2 ^ 24
  · rw [toFloat_of_small small]
    omega
  · have ulpLe := pow_log2_sub_le (n := n) (by omega)
    have parts := Nat.div_add_mod' n (2 ^ (n.log2 - 23))
    have next : (n / 2 ^ (n.log2 - 23) + 1) * 2 ^ (n.log2 - 23)
        = n / 2 ^ (n.log2 - 23) * 2 ^ (n.log2 - 23) + 2 ^ (n.log2 - 23) := Nat.succ_mul _ _
    have below := Nat.mod_lt n (Nat.two_pow_pos (n.log2 - 23))
    have lower : n - 2 ^ (n.log2 - 23) ≤ toFloat n := by
      simp only [toFloat]
      split <;> omega
    have upper : toFloat n ≤ n + 2 ^ (n.log2 - 23) := by
      simp only [toFloat]
      split <;> omega
    omega

/-- A table that is at most half full is not overloaded. -/
theorem not_overloaded {load size : Nat} (half : 2 * load ≤ size) : overloaded load size = false := by
  have loadClose := (toFloat_close load).1
  have sizeClose := (toFloat_close size).2
  rw [overloaded, decide_eq_false_iff_not]
  omega

end Rounding

namespace Dict
variable {K V : Type} {h : Hashing K} {d d' : Dict K V} {key : K} {value : V} {m : Table K V}

theorem landed_iff_absent (wf : d.Wf h) {landing : Mode × Nat × Nat}
    (landed : d.Landed h key landing) (full : d.Full) : ¬ d.Absent h key := by
  intro absent
  obtain ⟨mode, pos, first⟩ := landing
  cases mode with
  | inserting =>
      have taken := full first (lt_of_reaches wf landed.1.1)
      rw [isPresent_eq_false landed.1.2] at taken
      cases taken
  | overwriting =>
      obtain ⟨-, k, v, found, equal⟩ := landed
      rw [absent first k v found] at equal
      cases equal
  | moving =>
      obtain ⟨-, -, k, v, found, equal⟩ := landed
      rw [absent pos k v found] at equal
      cases equal

/-- What an insertion that finds a bucket does. -/
theorem insertHere_spec (key : K) (wf : d.Wf h) (value : V) :
    match d.insertHere h key value with
    | some inserted => (inserted.1 = true ↔ d.Absent h key) ∧
        ∃ first, Puts h d inserted.2 key value first
    | none => d.Absent h key ∧ d.Full := by
  have landing := insertHere_landed key wf value
  cases ended : d.insertHere h key value with
  | none =>
      rw [ended] at landing
      exact landing
  | some inserted =>
      rw [ended] at landing
      obtain ⟨landing, landed, rfl⟩ := landing
      have puts := puts_place value wf landed
      exact ⟨puts.2, landing.2.2, puts.1⟩

theorem insertHere_isSome_iff (wf : d.Wf h) :
    (d.insertHere h key value).isSome = true ↔ ¬ (d.Absent h key ∧ d.Full) := by
  have landing := insertHere_landed key wf value
  cases ended : d.insertHere h key value with
  | none =>
      rw [ended] at landing
      exact ⟨nofun, fun other => absurd landing other⟩
  | some inserted =>
      rw [ended] at landing
      obtain ⟨landing, landed, -⟩ := landing
      exact ⟨fun _ both => landed_iff_absent wf landed both.2 both.1, fun _ => rfl⟩

theorem count_eq_size_of_full (full : d.Full) : d.buckets.countP isPresent = d.size := by
  refine List.countP_eq_length.mpr fun b mem => ?_
  obtain ⟨pos, inside, rfl⟩ := List.getElem_of_mem mem
  rw [getElem_eq_bucket inside]
  exact full pos inside

/-! ## Rehashing -/

/-- The dict that is being filled holds the keys of the buckets that were seen. -/
structure Refilled (h : Hashing K) (size : Nat) (seen : List (Bucket K V)) (g : Dict K V) : Prop where
  wf : g.Wf h
  size_eq : g.size = size * 2
  uncounted : g.thombstonesCount = 0
  clean : ∀ pos, g.bucket pos ≠ .thombstone
  counts : g.buckets.countP isPresent = seen.countP isPresent
  holds : ∀ k v, (∃ pos, g.bucket pos = .present k v) ↔ .present k v ∈ seen

theorem bucket_replicate {size pos : Nat} :
    (⟨0, 0, List.replicate size .empty⟩ : Dict K V).bucket pos = .empty := by
  rw [bucket]
  cases found : (List.replicate size (Bucket.empty : Bucket K V))[pos]? with
  | none => rfl
  | some b => exact List.eq_of_mem_replicate (List.mem_of_getElem? found)

theorem count_replicate {size : Nat} :
    (List.replicate size (Bucket.empty : Bucket K V)).countP isPresent = 0 := by
  simp [List.countP_replicate, isPresent]

theorem wf_replicate {size : Nat} (positive : 0 < size) :
    (⟨0, 0, List.replicate size .empty⟩ : Dict K V).Wf h where
  nonempty := by
    rw [Dict.size, List.length_replicate]
    exact positive
  reached pos k v found := by
    rw [bucket_replicate] at found
    cases found
  distinct pos pos' k v k' v' found := by
    rw [bucket_replicate] at found
    cases found
  counted := by rw [count_replicate, Nat.zero_mod]

theorem refilled_nil {size : Nat} (positive : 0 < size) :
    Refilled h size ([] : List (Bucket K V)) ⟨0, 0, List.replicate (size * 2) .empty⟩ where
  wf := wf_replicate (by omega)
  size_eq := List.length_replicate
  uncounted := rfl
  clean pos := by
    rw [bucket_replicate]
    nofun
  counts := count_replicate
  holds k v := by
    refine ⟨fun found => ?_, nofun⟩
    obtain ⟨pos, found⟩ := found
    rw [bucket_replicate] at found
    cases found

/-- A bucket without a key is passed over. -/
theorem Refilled.keyless {size : Nat} {seen : List (Bucket K V)} {g : Dict K V} {b : Bucket K V}
    (refilled : Refilled h size seen g) (keyless : ∀ k v, b ≠ .present k v) :
    Refilled h size (seen ++ [b]) g where
  wf := refilled.wf
  size_eq := refilled.size_eq
  uncounted := refilled.uncounted
  clean := refilled.clean
  counts := by
    rw [List.countP_append, refilled.counts]
    simp [isPresent_eq_false keyless]
  holds k v := by
    rw [refilled.holds, List.mem_append, List.mem_singleton]
    exact ⟨.inl, fun either => either.resolve_right fun same => keyless k v same.symm⟩

/-- A key that is not there yet takes an unused bucket when there are no tombstones. -/
theorem place_clean {landing : Mode × Nat × Nat} (value : V) (landed : d.Landed h key landing)
    (absent : d.Absent h key) (clean : ∀ pos, d.bucket pos ≠ .thombstone) :
    (d.place key value landing).2 = ⟨(d.entriesCount + 1) % sizeBound, d.thombstonesCount,
      d.buckets.set landing.2.2 (.present key value)⟩ := by
  obtain ⟨mode, pos, first⟩ := landing
  have noTombstone : isThombstone (d.bucket first) = false := by
    cases atFirst : d.bucket first with
    | thombstone => exact absurd atFirst (clean first)
    | empty => rfl
    | present k v => rfl
  cases mode with
  | inserting => simp [place, noTombstone]
  | overwriting =>
      obtain ⟨-, k, v, found, equal⟩ := landed
      rw [absent first k v found] at equal
      cases equal
  | moving =>
      obtain ⟨-, -, k, v, found, equal⟩ := landed
      rw [absent pos k v found] at equal
      cases equal

/-- A key that was not met before is inserted without growing. -/
theorem Refilled.present {size : Nat} {seen : List (Bucket K V)} {g : Dict K V} {k : K} {v : V}
    (grow : Dict K V → Option (Dict K V)) (refilled : Refilled h size seen g)
    (room : seen.countP isPresent < size) (absent : g.Absent h k) :
    ∃ g', insertWith h grow g k v = some (true, g') ∧
      Refilled h size (seen ++ [.present k v]) g' := by
  have roomy : ¬ g.Full := by
    intro full
    have all := count_eq_size_of_full full
    rw [refilled.counts, refilled.size_eq] at all
    omega
  have light : overloaded ((g.entriesCount + g.thombstonesCount) % sizeBound) g.size = false := by
    apply not_overloaded
    have below := Nat.mod_le (g.buckets.countP isPresent % sizeBound) sizeBound
    have below' := Nat.mod_le (g.buckets.countP isPresent) sizeBound
    rw [refilled.wf.counted, refilled.uncounted, Nat.add_zero, refilled.size_eq]
    rw [refilled.counts] at below below' ⊢
    omega
  have landing := insertHere_landed k refilled.wf v
  cases ended : g.insertHere h k v with
  | none =>
      rw [ended] at landing
      exact absurd landing.2 roomy
  | some inserted =>
      rw [ended] at landing
      obtain ⟨landing, landed, same⟩ := landing
      have puts := puts_place v refilled.wf landed
      have placed := place_clean v landed absent refilled.clean
      rw [← same] at puts placed
      have inside : landing.2.2 < g.buckets.length := lt_of_reaches refilled.wf puts.1.reaches
      have free : isPresent (g.bucket landing.2.2) = false := by
        cases before : g.bucket landing.2.2 with
        | present k' v' =>
            have equal := puts.1.replaced k' v' before
            rw [absent _ k' v' before] at equal
            cases equal
        | empty => rfl
        | thombstone => rfl
      refine ⟨inserted.2, ?_, ?_⟩
      · rw [insertWith, light, if_neg Bool.false_ne_true, ended]
        rw [← puts.2.mpr absent]
      · refine ⟨puts.1.wf refilled.wf, puts.1.size_eq.trans refilled.size_eq, ?_, ?_, ?_, ?_⟩
        · rw [placed]
          exact refilled.uncounted
        · intro pos
          rw [placed, bucket_set inside]
          split
          · nofun
          · exact refilled.clean pos
        · have after := count_set (b := .present k v) inside
          rw [free] at after
          rw [placed, List.countP_append, ← refilled.counts]
          exact after
        · intro k' v'
          rw [List.mem_append, List.mem_singleton, ← refilled.holds]
          constructor
          · intro found
            obtain ⟨pos, found⟩ := found
            by_cases here : pos = landing.2.2
            · rw [here, puts.1.put] at found
              exact .inr found.symm
            · exact .inl ⟨pos, ((puts.1.others pos here k' v').mp found).1⟩
          · intro either
            rcases either with found | same'
            · obtain ⟨pos, found⟩ := found
              have other := absent pos k' v' found
              have apart : pos ≠ landing.2.2 := by
                intro here
                rw [here] at found
                rw [found] at free
                cases free
              exact ⟨pos, (puts.1.others pos apart k' v').mpr ⟨found, other⟩⟩
            · exact ⟨landing.2.2, same' ▸ puts.1.put⟩

/-- Two buckets of a dict hold different keys. -/
theorem absent_of_seen (wf : d.Wf h) {seen rest : List (Bucket K V)} {g : Dict K V} {k : K} {v : V}
    {size : Nat} (refilled : Refilled h size seen g) (split : d.buckets = seen ++ .present k v :: rest) :
    g.Absent h k := by
  intro pos k' v' found
  by_contra equal
  rw [Bool.not_eq_false] at equal
  have mem : .present k' v' ∈ seen := (refilled.holds k' v').mp ⟨pos, found⟩
  obtain ⟨before, inside, atBefore⟩ := List.getElem_of_mem mem
  have found₁ : d.bucket before = .present k' v' := by
    rw [bucket, split, List.getElem?_append_left inside, List.getElem?_eq_getElem inside, atBefore]
    rfl
  have found₂ : d.bucket seen.length = .present k v := by
    rw [bucket, split, List.getElem?_append_right le_rfl, Nat.sub_self]
    rfl
  have same := wf.distinct before seen.length k' v' k v found₁ found₂ equal
  omega

theorem rehash_refills (wf : d.Wf h) (grow : Dict K V → Option (Dict K V)) :
    ∀ (rest seen : List (Bucket K V)) (g : Dict K V), d.buckets = seen ++ rest →
      Refilled h d.size seen g →
      ∃ grown, rehash (insertWith h grow) rest g = some grown ∧ Refilled h d.size d.buckets grown := by
  intro rest
  induction rest with
  | nil =>
      intro seen g split refilled
      rw [List.append_nil] at split
      exact ⟨g, rfl, split ▸ refilled⟩
  | cons b rest ih =>
      intro seen g split refilled
      have split' : d.buckets = (seen ++ [b]) ++ rest := by rw [split, List.append_assoc]; rfl
      cases b with
      | empty => exact ih _ g split' (refilled.keyless nofun)
      | thombstone => exact ih _ g split' (refilled.keyless nofun)
      | present k v =>
          have room : seen.countP isPresent < d.size := by
            have atMost := List.countP_le_length (p := isPresent) (l := seen)
            rw [Dict.size, split, List.length_append, List.length_cons]
            omega
          obtain ⟨g', inserted, refilled'⟩ :=
            refilled.present grow (v := v) room (absent_of_seen wf refilled split)
          obtain ⟨grown, rehashed, done⟩ := ih _ g' split' refilled'
          refine ⟨grown, ?_, done⟩
          rw [rehash, inserted]
          exact rehashed

theorem growAndRehash_spec (wf : d.Wf h) (bound : Nat) :
    ∃ grown, growAndRehash h (bound + 1) d = some grown ∧ Refilled h d.size d.buckets grown := by
  obtain ⟨grown, rehashed, refilled⟩ := rehash_refills wf (growAndRehash h bound) d.buckets [] _ rfl
    (refilled_nil wf.nonempty)
  refine ⟨grown, ?_, refilled⟩
  have same : d.entriesCount = grown.entriesCount := by
    rw [wf.counted, refilled.wf.counted, refilled.counts]
  rw [growAndRehash, rehashed, Option.bind_some, if_pos same]

/-- The grown dict stands for the same table, and is not full. -/
theorem Refilled.represents {grown : Dict K V} (refilled : Refilled h d.size d.buckets grown) :
    grown.Represents h m ↔ d.Represents h m := by
  have same : ∀ k v, (∃ pos, grown.bucket pos = .present k v) ↔ ∃ pos, d.bucket pos = .present k v :=
    fun k v => (refilled.holds k v).trans mem_buckets_iff
  simp only [Represents, same]

theorem Refilled.not_full {grown : Dict K V} (wf : d.Wf h)
    (refilled : Refilled h d.size d.buckets grown) : ¬ grown.Full := by
  intro full
  have all := count_eq_size_of_full full
  have atMost : d.buckets.countP isPresent ≤ d.size := List.countP_le_length
  have positive := wf.nonempty
  rw [refilled.counts, refilled.size_eq] at all
  omega

/-! ## Insertions into a dict of any load -/

/-- There is room for the key, or the counters show that the dict has to grow first. -/
def Roomy (h : Hashing K) (d : Dict K V) (key : K) : Prop :=
  overloaded ((d.entriesCount + d.thombstonesCount) % sizeBound) d.size = true ∨
    ¬ (d.Absent h key ∧ d.Full)

theorem insertHere_represents (wf : d.Wf h) (represents : d.Represents h m)
    {inserted : Bool × Dict K V} (ended : d.insertHere h key value = some inserted) :
    inserted.1 = (m key).isNone ∧ inserted.2.Wf h ∧
      inserted.2.Represents h (m.insert h key value) := by
  have spec := insertHere_spec key wf value
  rw [ended] at spec
  obtain ⟨fresh, first, puts⟩ := spec
  refine ⟨?_, puts.wf wf, puts.represents represents⟩
  rw [Bool.eq_iff_iff, fresh, absent_iff represents, Option.isNone_iff_eq_none]

theorem insert_eq_none_iff (wf : d.Wf h) (bound : Nat) :
    d.insert h (bound + 1) key value = none ↔ ¬ d.Roomy h key := by
  rw [insert, insertWith, Roomy]
  by_cases heavy : overloaded ((d.entriesCount + d.thombstonesCount) % sizeBound) d.size = true
  · obtain ⟨grown, grew, refilled⟩ := growAndRehash_spec wf bound
    have inserts : (grown.insertHere h key value).isSome = true :=
      (insertHere_isSome_iff refilled.wf).mpr fun both => refilled.not_full wf both.2
    rw [if_pos heavy, grew, Option.bind_some, ← Option.not_isSome_iff_eq_none]
    exact ⟨fun missing => absurd inserts missing, fun other => absurd (.inl heavy) other⟩
  · rw [if_neg heavy, ← Option.not_isSome_iff_eq_none, insertHere_isSome_iff wf]
    exact ⟨fun both either => both (either.resolve_left heavy), fun other both => other (.inr both)⟩

theorem insert_spec (wf : d.Wf h) (represents : d.Represents h m) (bound : Nat)
    {inserted : Bool × Dict K V} (ended : d.insert h (bound + 1) key value = some inserted) :
    inserted.1 = (m key).isNone ∧ inserted.2.Wf h ∧
      inserted.2.Represents h (m.insert h key value) := by
  rw [insert, insertWith] at ended
  by_cases heavy : overloaded ((d.entriesCount + d.thombstonesCount) % sizeBound) d.size = true
  · obtain ⟨grown, grew, refilled⟩ := growAndRehash_spec wf bound
    rw [if_pos heavy, grew, Option.bind_some] at ended
    exact insertHere_represents refilled.wf (refilled.represents.mpr represents) ended
  · rw [if_neg heavy] at ended
    exact insertHere_represents wf represents ended

end Dict

end Shady.Common
