import Shady.Common.DictGrowth

/-!
# Runs over dicts

Requests are served as if the dicts were finite maps, for as long as no new key is put into
a dict whose buckets all hold a key while its counters do not show it. This can happen: a key
that moves to an earlier tombstone leaves one behind that is not counted.
-/

set_option autoImplicit false

namespace Shady.Common

namespace Dict
variable {K V : Type} {h : Hashing K} {d : Dict K V} {key : K} {value : V} {m : Table K V}

/-! ## Iteration -/

def entry : Bucket K V → Option (K × V)
  | .present key value => some (key, value)
  | _ => none

theorem entry_eq_some {b : Bucket K V} {e : K × V} : entry b = some e ↔ b = .present e.1 e.2 := by
  cases b with
  | empty => exact ⟨nofun, nofun⟩
  | thombstone => exact ⟨nofun, nofun⟩
  | present k v =>
      constructor
      · intro same
        cases same
        rfl
      · intro same
        cases same
        rfl

/-- The next entry is the first of those that are left, and the others are left after it. -/
theorem iterFrom_spec (buckets : List (Bucket K V)) : ∀ pos,
    match iterFrom buckets pos with
    | none => buckets.filterMap entry = []
    | some (e, next) => ∃ skipped, next = pos + skipped + 1 ∧ skipped < buckets.length ∧
        buckets.filterMap entry = e :: (buckets.drop (skipped + 1)).filterMap entry := by
  induction buckets with
  | nil => exact fun _ => rfl
  | cons b rest ih =>
      intro pos
      have keyless : entry b = none → iterFrom (b :: rest) pos = iterFrom rest (pos + 1) →
          match iterFrom (b :: rest) pos with
          | none => (b :: rest).filterMap entry = []
          | some (e, next) => ∃ skipped, next = pos + skipped + 1 ∧ skipped < (b :: rest).length ∧
              (b :: rest).filterMap entry
                = e :: ((b :: rest).drop (skipped + 1)).filterMap entry := by
        intro noEntry goesOn
        have left := ih (pos + 1)
        rw [goesOn, List.filterMap_cons_none noEntry]
        cases found : iterFrom rest (pos + 1) with
        | none =>
            rw [found] at left
            exact left
        | some visit =>
            rw [found] at left
            obtain ⟨skipped, next, inside, listed⟩ := left
            refine ⟨skipped + 1, by omega, Nat.succ_lt_succ inside, ?_⟩
            rw [List.drop_succ_cons]
            exact listed
      cases b with
      | empty => exact keyless rfl rfl
      | thombstone => exact keyless rfl rfl
      | present k v => exact ⟨0, rfl, Nat.succ_pos _, rfl⟩

theorem visited_eq (d : Dict K V) : ∀ turns iterator, d.size < turns + iterator →
    d.visited turns iterator = (d.buckets.drop iterator).filterMap entry := by
  intro turns
  induction turns with
  | zero =>
      intro iterator past
      have none : d.buckets.drop iterator = [] := List.drop_eq_nil_of_le (by rw [Dict.size] at past; omega)
      rw [none]
      rfl
  | succ turns ih =>
      intro iterator past
      have next := iterFrom_spec (d.buckets.drop iterator) iterator
      rw [visited, iter]
      cases found : iterFrom (d.buckets.drop iterator) iterator with
      | none =>
          rw [found] at next
          exact next.symm
      | some visit =>
          rw [found] at next
          obtain ⟨skipped, after, -, listed⟩ := next
          have rest := ih visit.2 (by omega)
          rw [listed, List.drop_drop, ← Nat.add_assoc, ← after, ← rest]

theorem entries_eq (d : Dict K V) : d.entries = d.buckets.filterMap entry :=
  visited_eq d (d.size + 1) 0 (by omega)

theorem mem_entries {e : K × V} : e ∈ d.entries ↔ ∃ pos, d.bucket pos = .present e.1 e.2 := by
  rw [entries_eq, List.mem_filterMap]
  simp only [entry_eq_some, exists_eq_right]
  exact mem_buckets_iff

/-- An iteration visits each key once. -/
theorem entries_lists (wf : d.Wf h) (represents : d.Represents h m) : m.Lists h d.entries where
  sound e mem := (represents e.1 e.1 e.2).mpr ⟨mem_entries.mp mem, h.refl e.1⟩
  complete q e known := mem_entries.mpr ((represents q e.1 e.2).mp known).1
  once := by
    rw [entries_eq, List.pairwise_filterMap, List.pairwise_iff_getElem]
    intro i j iInside jInside before a isA b isB
    rw [entry_eq_some, getElem_eq_bucket] at isA isB
    by_contra equal
    have same := wf.distinct i j a.1 a.2 b.1 b.2 isA isB (Bool.eq_true_of_not_eq_false equal)
    omega

/-! ## Dicts without keys -/

theorem represents_replicate {size : Nat} :
    (⟨0, 0, List.replicate size .empty⟩ : Dict K V).Represents h Table.empty := by
  intro q k v
  refine ⟨nofun, fun found => ?_⟩
  obtain ⟨⟨pos, found⟩, -⟩ := found
  rw [bucket_replicate] at found
  cases found

end Dict

/-! ## Requests -/

section Requests
variable {K V : Type} (h : Hashing K)

/-- The tables after a request. -/
def nextTables (tables : List (Table K V)) : Request K V → List (Table K V)
  | .insert i key value => tables.modify i fun m => m.insert h key value
  | .remove i key => tables.modify i fun m => m.remove h key
  | .clone i => tables ++ tables[i]?.toList
  | .clear i => tables.modify i fun _ => Table.empty
  | .find _ _ => tables
  | .iterate _ => tables

/-- What the answer to a request to one dict should be. -/
def RightFor (m : Table K V) : Request K V → Answer K V → Prop
  | .insert _ key _, answer => answer = .inserted (m key).isNone
  | .remove _ key, answer => answer = .removed (m key).isSome
  | .find _ key, answer => answer = .found (m key)
  | .iterate _, answer => ∃ entries, answer = .visited entries ∧ m.Lists h entries
  | .clone _, answer => answer = .nothing
  | .clear _, answer => answer = .nothing

def Request.dict : Request K V → Nat
  | .insert i _ _ => i
  | .remove i _ => i
  | .find i _ => i
  | .clone i => i
  | .clear i => i
  | .iterate i => i

def Right (tables : List (Table K V)) (request : Request K V) (answer : Answer K V) : Prop :=
  match tables[request.dict]? with
  | none => answer = .nothing
  | some m => RightFor h m request answer

/-- The answers to a sequence of requests. -/
def RightAll : List (Request K V) → List (Answer K V) → List (Table K V) → Prop
  | [], answers, _ => answers = []
  | request :: rest, answers, tables =>
      ∃ answer others, answers = answer :: others ∧ Right h tables request answer ∧
        RightAll rest others (nextTables h tables request)

/-- An insertion has room, or makes the dict grow. -/
def RoomyFor (dicts : List (Dict K V)) : Request K V → Prop
  | .insert i key _ => ∀ d, dicts[i]? = some d → d.Roomy h key
  | _ => True

/-- Along a run, for as long as it goes on, every insertion has room or makes the dict grow. -/
def RoomyAll (bound : Nat) : List (Request K V) → List (Dict K V) → Prop
  | [], _ => True
  | request :: rest, dicts =>
      RoomyFor h dicts request ∧ ∀ served, serve h bound dicts request = some served →
        RoomyAll bound rest served.2

/-- The dicts stand for the tables. -/
def Stands (dicts : List (Dict K V)) (tables : List (Table K V)) : Prop :=
  List.Forall₂ (fun d m => d.Wf h ∧ d.Represents h m) dicts tables

variable {h} {bound : Nat} {dicts : List (Dict K V)} {tables : List (Table K V)}

theorem stands_newDict : Stands h [(Dict.newDict : Dict K V)] [Table.empty] :=
  .cons ⟨Dict.wf_replicate (by decide), Dict.represents_replicate⟩ .nil

theorem Stands.get {i : Nat} (stands : Stands h dicts tables) :
    match dicts[i]?, tables[i]? with
    | some d, some m => d.Wf h ∧ d.Represents h m
    | none, none => True
    | _, _ => False := by
  induction stands generalizing i with
  | nil => trivial
  | cons first rest ih =>
      cases i with
      | zero => exact first
      | succ i => exact ih

theorem Stands.set {i : Nat} {d' : Dict K V} {change : Table K V → Table K V}
    (stands : Stands h dicts tables)
    (new : ∀ m, tables[i]? = some m → d'.Wf h ∧ d'.Represents h (change m)) :
    Stands h (dicts.set i d') (tables.modify i change) := by
  induction stands generalizing i with
  | nil => cases i <;> exact .nil
  | cons first rest ih =>
      cases i with
      | zero => exact .cons (new _ rfl) rest
      | succ i => exact .cons first (ih new)

theorem Stands.append {d : Dict K V} {m : Table K V} (stands : Stands h dicts tables)
    (new : d.Wf h ∧ d.Represents h m) : Stands h (dicts ++ [d]) (tables ++ [m]) :=
  List.rel_append stands (.cons new .nil)

/-- A request to a dict that there is not changes nothing. -/
theorem nextTables_missing {request : Request K V} (missing : tables[request.dict]? = none) :
    nextTables h tables request = tables := by
  have outside : tables.length ≤ request.dict := List.getElem?_eq_none_iff.mp missing
  cases request with
  | insert i key value => exact List.modify_eq_self outside
  | remove i key => exact List.modify_eq_self outside
  | clear i => exact List.modify_eq_self outside
  | clone i =>
      rw [nextTables, show tables[i]? = none from missing]
      exact List.append_nil tables
  | find i key => rfl
  | iterate i => rfl

theorem serve_missing {request : Request K V} (missing : dicts[request.dict]? = none) :
    serve h bound dicts request = some (.nothing, dicts) := by
  cases request <;> simp only [Request.dict] at missing <;> simp only [serve, missing]

/-- A request that is served is answered as it should be, and the dicts still stand for the tables. -/
theorem serve_right {request : Request K V} {served : Answer K V × List (Dict K V)}
    (stands : Stands h dicts tables) (ended : serve h (bound + 1) dicts request = some served) :
    Right h tables request served.1 ∧ Stands h served.2 (nextTables h tables request) := by
  have both := stands.get (i := request.dict)
  rw [Right]
  cases atDict : dicts[request.dict]? with
  | none =>
      cases atTable : tables[request.dict]? with
      | some m => simp only [atDict, atTable] at both
      | none =>
          rw [serve_missing atDict] at ended
          cases ended
          exact ⟨rfl, (nextTables_missing atTable).symm ▸ stands⟩
  | some d =>
      cases atTable : tables[request.dict]? with
      | none => simp only [atDict, atTable] at both
      | some m =>
          simp only [atDict, atTable] at both
          obtain ⟨wf, represents⟩ := both
          cases request with
          | insert i key value =>
              simp only [Request.dict] at atDict atTable
              simp only [serve, atDict, Option.map_eq_some_iff] at ended
              obtain ⟨inserted, ended, rfl⟩ := ended
              have spec := Dict.insert_spec wf represents bound ended
              refine ⟨congrArg _ spec.1, stands.set fun m' isTable => ?_⟩
              rw [atTable] at isTable
              cases isTable
              exact spec.2
          | remove i key =>
              simp only [Request.dict] at atDict atTable
              simp only [serve, atDict, Option.some.injEq] at ended
              cases ended
              have spec := Dict.remove_spec key wf represents
              refine ⟨congrArg _ spec.1, stands.set fun m' isTable => ?_⟩
              rw [atTable] at isTable
              cases isTable
              exact spec.2
          | find i key =>
              simp only [Request.dict] at atDict
              simp only [serve, atDict, Option.some.injEq] at ended
              cases ended
              exact ⟨congrArg _ (Dict.find_eq wf represents), stands⟩
          | clone i =>
              simp only [Request.dict] at atDict atTable
              simp only [serve, atDict, Option.some.injEq] at ended
              cases ended
              refine ⟨rfl, ?_⟩
              rw [nextTables, atTable]
              exact stands.append ⟨wf, represents⟩
          | clear i =>
              simp only [Request.dict] at atDict
              simp only [serve, atDict, Option.some.injEq] at ended
              cases ended
              refine ⟨rfl, stands.set fun m' isTable => ?_⟩
              exact ⟨Dict.wf_replicate wf.nonempty, Dict.represents_replicate⟩
          | iterate i =>
              simp only [Request.dict] at atDict
              simp only [serve, atDict, Option.some.injEq] at ended
              cases ended
              exact ⟨⟨d.entries, rfl, Dict.entries_lists wf represents⟩, stands⟩

/-- A request is served, unless it puts a new key into a dict that is full without showing it. -/
theorem serve_eq_none_iff {request : Request K V} (stands : Stands h dicts tables) :
    serve h (bound + 1) dicts request = none ↔ ¬ RoomyFor h dicts request := by
  cases request with
  | insert i key value =>
      rw [serve, RoomyFor]
      cases atDict : dicts[i]? with
      | none => simp
      | some d =>
          have both := stands.get (i := i)
          rw [atDict] at both
          cases atTable : tables[i]? with
          | none => simp only [atTable] at both
          | some m =>
              simp only [atTable] at both
              rw [Option.map_eq_none_iff, Dict.insert_eq_none_iff both.1 bound]
              simp
  | remove i key => rw [serve]; cases dicts[i]? <;> simp [RoomyFor]
  | find i key => rw [serve]; cases dicts[i]? <;> simp [RoomyFor]
  | clone i => rw [serve]; cases dicts[i]? <;> simp [RoomyFor]
  | clear i => rw [serve]; cases dicts[i]? <;> simp [RoomyFor]
  | iterate i => rw [serve]; cases dicts[i]? <;> simp [RoomyFor]

theorem serveAll_right_iff : ∀ (requests : List (Request K V)) (dicts : List (Dict K V))
    (tables : List (Table K V)), Stands h dicts tables →
    ((∃ answers after, serveAll h (bound + 1) requests dicts = some (answers, after) ∧
      RightAll h requests answers tables) ↔ RoomyAll h (bound + 1) requests dicts) := by
  intro requests
  induction requests with
  | nil => exact fun dicts tables _ => ⟨fun _ => trivial, fun _ => ⟨[], dicts, rfl, rfl⟩⟩
  | cons request rest ih =>
      intro dicts tables stands
      rw [serveAll, RoomyAll]
      cases ended : serve h (bound + 1) dicts request with
      | none =>
          have noRoom := (serve_eq_none_iff stands).mp ended
          refine ⟨fun runs => ?_, fun roomy => absurd roomy.1 noRoom⟩
          obtain ⟨answers, after, runs, -⟩ := runs
          cases runs
      | some served =>
          have right := serve_right stands ended
          have room : RoomyFor h dicts request := by
            by_contra noRoom
            rw [(serve_eq_none_iff stands).mpr noRoom] at ended
            cases ended
          have later := ih served.2 (nextTables h tables request) right.2
          rw [Option.bind_some]
          constructor
          · intro runs
            obtain ⟨answers, after, runs, answer, others, rfl, -, rightLater⟩ := runs
            obtain ⟨run, ran, same⟩ := Option.map_eq_some_iff.mp runs
            simp only [Prod.mk.injEq, List.cons.injEq] at same
            refine ⟨room, fun served' ended' => ?_⟩
            cases ended'
            refine later.mp ⟨run.1, run.2, ran, ?_⟩
            rw [same.1.2]
            exact rightLater
          · intro roomy
            obtain ⟨answers, after, ran, rightLater⟩ := later.mpr (roomy.2 served rfl)
            refine ⟨served.1 :: answers, after, ?_, served.1, answers, rfl, right.1, rightLater⟩
            rw [ran]
            rfl

end Requests

/-- Every sequence of requests is served as finite maps would serve it, if and only if each
    insertion along it finds room or makes the dict grow. -/
theorem dict_refines_table {K V : Type} (h : Hashing K) (bound : Nat)
    (requests : List (Request K V)) :
    (∃ answers dicts, serveAll h (bound + 1) requests [Dict.newDict] = some (answers, dicts) ∧
      RightAll h requests answers [Table.empty]) ↔
      RoomyAll h (bound + 1) requests [Dict.newDict] :=
  serveAll_right_iff requests _ _ stands_newDict

/-! ## A dict that is full without showing it -/

def plainHashing : Hashing Nat where
  hash key := key
  cmp a b := a == b
  refl := beq_self_eq_true
  symm a b same := by rw [beq_iff_eq] at same ⊢; exact same.symm
  trans a b c same same' := by rw [beq_iff_eq] at same same' ⊢; exact same.trans same'
  hash_eq a b same := beq_iff_eq.mp same

/-- The second key moves into the tombstone of the first one. -/
def moveBack (first second : Nat) : List (Request Nat Unit) :=
  [.remove 0 first, .insert 0 second (), .insert 0 first ()]

/-- Nineteen keys, two of which change places thirteen times, a key for each bucket that is
    left, and one more. -/
def crowding : List (Request Nat Unit) :=
  ([0, 32] ++ List.range' 2 17).map (fun key => .insert 0 key ()) ++
    (List.range 13).flatMap (fun i => if i % 2 = 0 then moveBack 0 32 else moveBack 32 0) ++
    (List.range' 19 13 ++ [33]).map (fun key => .insert 0 key ())

set_option maxRecDepth 100000 in
theorem crowding_fails : serveAll plainHashing 2 crowding [Dict.newDict] = none := by
  have missing : (serveAll plainHashing 2 crowding [Dict.newDict]).isNone = true := by decide +kernel
  exact Option.isNone_iff_eq_none.mp missing

/-- Not every sequence of requests is served as finite maps would serve it. -/
theorem dict_loses_room : ¬ ∃ answers dicts,
    serveAll plainHashing 2 crowding [Dict.newDict] = some (answers, dicts) ∧
      RightAll plainHashing crowding answers [Table.empty] := by
  intro served
  obtain ⟨answers, dicts, served, -⟩ := served
  rw [crowding_fails] at served
  cases served

end Shady.Common
