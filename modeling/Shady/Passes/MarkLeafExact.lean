import Mathlib.Algebra.GroupWithZero.Nat
import Shady.Library.Fallible
import Shady.Passes.MarkLeafFunctions
import Mathlib.Data.List.FinRange

/-!
# When the leaf annotation is sound

`CallsLeaves` is what the call graph should say: nothing rules the function out, and the
same holds of everything it calls. As long as no write is lost the memo of `is_leaf_fn`
agrees with it. A write is lost when the table grows between the discovery of a function
and the return from a callee that is no leaf.
-/

set_option autoImplicit false

namespace Shady

variable {count : Nat}

local instance finLawful : LawfulBEq (Fin count) := inferInstance

/-! ## Leaves of the call graph -/

inductive CallsLeaves (graph : CallGraph count) : Fin count → Prop
  | intro {f : Fin count} (open_ : (graph f).ruledOut = false)
      (callees : ∀ g, graph.Calls f g → CallsLeaves graph g) : CallsLeaves graph f

section CallsLeaves
variable {graph : CallGraph count}

theorem CallsLeaves.callee {f g : Fin count} (leaves : CallsLeaves graph f)
    (calls : graph.Calls f g) : CallsLeaves graph g := by
  cases leaves with
  | intro _ callees => exact callees g calls

theorem CallsLeaves.not_ruledOut {f : Fin count} (leaves : CallsLeaves graph f) :
    (graph f).ruledOut = false := by
  cases leaves with
  | intro ruled _ => exact ruled

/-- No leaf is on a cycle of calls. -/
theorem CallsLeaves.acyclic {f : Fin count} (leaves : CallsLeaves graph f) :
    ¬ Relation.TransGen graph.Calls f f := by
  induction leaves with
  | intro _ _ ih =>
      intro cycle
      obtain ⟨g, first, rest⟩ := Relation.TransGen.head'_iff.mp cycle
      exact ih g first (Relation.TransGen.tail' rest first)

end CallsLeaves

/-! ## The walk without its memo -/

/-- The number of buckets after so many insertions. -/
def tableSize : Nat → Nat
  | 0 => 32
  | inserted + 1 =>
      if overloaded inserted (tableSize inserted) then 2 * tableSize inserted
      else tableSize inserted

/-- A return from `callee`: how many functions had been discovered when its caller was,
that one included, and how many have been by now. -/
structure Return (count : Nat) where
  discovered : Nat
  returned : Nat
  callee : Fin count
  deriving DecidableEq

/-- The walk over the callees of a function. -/
def discoverCallees (visit : Fin count → List (Fin count) → List (Fin count) × List (Return count))
    (discovered : Nat) :
    List (Fin count) → List (Fin count) → List (Fin count) × List (Return count)
  | [], found => (found, [])
  | callee :: callees, found =>
      let (found, inner) := visit callee found
      let (last, later) := discoverCallees visit discovered callees found
      (last, inner ++ ⟨discovered, found.length, callee⟩ :: later)

/-- The functions found by the walk from a function, in order, and the returns on the way. -/
def discover (graph : CallGraph count) :
    Nat → Fin count → List (Fin count) → List (Fin count) × List (Return count)
  | 0, _, found => (found, [])
  | fuel + 1, fn, found =>
      if fn ∈ found then (found, [])
      else if (graph fn).ruledOut then (found ++ [fn], [])
      else discoverCallees (discover graph fuel) (found ++ [fn]).length (graph fn).callees
        (found ++ [fn])

def discoverAll (graph : CallGraph count) :
    List (Fin count) → List (Fin count) → List (Fin count) × List (Return count)
  | [], found => (found, [])
  | fn :: order, found =>
      let (found, inner) := discover graph (count + 1) fn found
      let (last, later) := discoverAll graph order found
      (last, inner ++ later)

/-- The table does not grow before the return from a callee that is no leaf. -/
def TableKept (graph : CallGraph count) (returns : List (Return count)) : Prop :=
  ∀ r ∈ returns, ¬ CallsLeaves graph r.callee → tableSize r.discovered = tableSize r.returned

theorem tableKept_append {graph : CallGraph count} {first second : List (Return count)} :
    TableKept graph (first ++ second) ↔ TableKept graph first ∧ TableKept graph second := by
  simp [TableKept, or_imp, forall_and]

theorem tableKept_cons {graph : CallGraph count} {r : Return count} {rest : List (Return count)} :
    TableKept graph (r :: rest) ↔
      (¬ CallsLeaves graph r.callee → tableSize r.discovered = tableSize r.returned) ∧
        TableKept graph rest := by
  simp [TableKept]

/-! ## The memo against the walk -/

/-- The memo has an entry for each function found, and the size that goes with them. -/
structure Tracks (found : List (Fin count)) (memo : LeafMemo count) : Prop where
  keys : ∀ f, (memo.info f).isSome = true ↔ f ∈ found
  entries : memo.entries = found.length
  size : memo.size = tableSize found.length

def Done (memo : LeafMemo count) (f : Fin count) : Prop :=
  ∃ info, memo.info f = some info ∧ info.done = true

def Pending (memo : LeafMemo count) (f : Fin count) : Prop :=
  ∃ info, memo.info f = some info ∧ info.done = false

/-- Entries that are done are right, and the others belong to calls that are running. -/
structure Right (graph : CallGraph count) (running : List (Fin count)) (memo : LeafMemo count) :
    Prop where
  settled : ∀ f info, memo.info f = some info → info.done = true →
    (info.isLeaf = true ↔ CallsLeaves graph f)
  pending : ∀ f, Pending memo f → f ∈ running

/-- Entries stay, and stay done. -/
structure Extends (memo memo' : LeafMemo count) : Prop where
  done : ∀ f, Done memo f → Done memo' f
  pending : ∀ f, Pending memo' f → Pending memo f

theorem Extends.refl (memo : LeafMemo count) : Extends memo memo :=
  ⟨fun _ done => done, fun _ pending => pending⟩

theorem Extends.trans {a b c : LeafMemo count} (first : Extends a b) (second : Extends b c) :
    Extends a c :=
  ⟨fun f done => second.done f (first.done f done),
    fun f pending => first.pending f (second.pending f pending)⟩

namespace LeafMemo

variable {memo : LeafMemo count} {fn : Fin count} {info : FnInfo}

theorem write_fresh : memo.write memo.size fn info =
    { memo with info := fun g => if g = fn then some info else memo.info g } := if_pos rfl

theorem write_stale {table : Nat} (stale : table ≠ memo.size) :
    memo.write table fn info = { memo with stray := true } := if_neg stale

end LeafMemo

theorem Tracks.new : Tracks [] (LeafMemo.new count) := by
  constructor
  · intro f
    simp [LeafMemo.new]
  · rfl
  · rfl

theorem Tracks.insert {found : List (Fin count)} {memo : LeafMemo count} (tracks : Tracks found memo)
    (fn : Fin count) (info : FnInfo) : Tracks (found ++ [fn]) (memo.insert fn info) := by
  constructor
  · intro f
    simp only [LeafMemo.insert, List.mem_append, List.mem_singleton]
    by_cases same : f = fn
    · simp [same]
    · simp [same, tracks.keys]
  · simp [LeafMemo.insert, tracks.entries]
  · rw [List.length_append, List.length_singleton, tableSize]
    simp only [LeafMemo.insert, tracks.entries, tracks.size]

theorem Tracks.write {found : List (Fin count)} {memo : LeafMemo count} (tracks : Tracks found memo)
    {table : Nat} {fn : Fin count} (member : fn ∈ found) (info : FnInfo) :
    Tracks found (memo.write table fn info) := by
  unfold LeafMemo.write
  split
  · refine ⟨?_, tracks.entries, tracks.size⟩
    intro f
    by_cases same : f = fn
    · simp [same, member]
    · simp [same, tracks.keys]
  · exact ⟨tracks.keys, tracks.entries, tracks.size⟩

theorem Tracks.get {found : List (Fin count)} {memo : LeafMemo count} (tracks : Tracks found memo)
    {f : Fin count} (member : f ∈ found) : ∃ info, memo.info f = some info :=
  Option.isSome_iff_exists.mp ((tracks.keys f).mpr member)

/-- An entry is settled by a right answer. -/
theorem Right.settle {graph : CallGraph count} {running : List (Fin count)} {memo : LeafMemo count}
    {fn : Fin count} {leaf : Bool} (right : Right graph (fn :: running) memo)
    (answer : leaf = true ↔ CallsLeaves graph fn) :
    Right graph running (memo.write memo.size fn ⟨leaf, true⟩) := by
  rw [LeafMemo.write_fresh]
  constructor
  · intro f info found done
    by_cases same : f = fn
    · subst same
      simp only [if_true, Option.some.injEq] at found
      exact found ▸ answer
    · simp only [same, if_false] at found
      exact right.settled f info found done
  · intro f pending
    obtain ⟨info, found, open_⟩ := pending
    by_cases same : f = fn
    · simp only [same, if_true, Option.some.injEq] at found
      rw [← found] at open_
      cases open_
    · simp only [same, if_false] at found
      exact (List.mem_cons.mp (right.pending f ⟨info, found, open_⟩)).resolve_left same

theorem Extends.settle (memo : LeafMemo count) (fn : Fin count) (leaf : Bool) :
    Extends memo (memo.write memo.size fn ⟨leaf, true⟩) := by
  rw [LeafMemo.write_fresh]
  constructor
  · intro f done
    by_cases same : f = fn
    · exact ⟨⟨leaf, true⟩, if_pos same, rfl⟩
    · obtain ⟨info, found, isDone⟩ := done
      exact ⟨info, (if_neg same).trans found, isDone⟩
  · intro f pending
    obtain ⟨info, found, open_⟩ := pending
    by_cases same : f = fn
    · simp only [same, if_true, Option.some.injEq] at found
      rw [← found] at open_
      cases open_
    · exact ⟨info, (if_neg same).symm.trans found, open_⟩

theorem Right.weaken {graph : CallGraph count} {running : List (Fin count)} {memo : LeafMemo count}
    (fn : Fin count) (right : Right graph running memo) : Right graph (fn :: running) memo :=
  ⟨right.settled, fun f pending => List.mem_cons_of_mem _ (right.pending f pending)⟩

/-- The entry that a call makes for its function is not done. -/
theorem Right.insert {graph : CallGraph count} {running : List (Fin count)}
    {memo : LeafMemo count} (right : Right graph running memo) (fn : Fin count) :
    Right graph (fn :: running) (memo.insert fn ⟨false, false⟩) := by
  constructor
  · intro f info found done
    by_cases same : f = fn
    · simp only [LeafMemo.insert, same, if_true, Option.some.injEq] at found
      rw [← found] at done
      cases done
    · simp only [LeafMemo.insert, same, if_false] at found
      exact right.settled f info found done
  · intro f pending
    obtain ⟨info, found, open_⟩ := pending
    by_cases same : f = fn
    · exact same ▸ List.mem_cons_self
    · simp only [LeafMemo.insert, same, if_false] at found
      exact List.mem_cons_of_mem _ (right.pending f ⟨info, found, open_⟩)

theorem Extends.of_insert {memo memo' : LeafMemo count} {fn : Fin count}
    (missing : memo.info fn = none) (later : Extends (memo.insert fn ⟨false, false⟩) memo')
    (done : Done memo' fn) : Extends memo memo' := by
  constructor
  · intro f doneF
    obtain ⟨info, found, isDone⟩ := doneF
    apply later.done f
    refine ⟨info, (if_neg ?_).trans found, isDone⟩
    intro same
    rw [same, missing] at found
    cases found
  · intro f pending
    obtain ⟨info, found, open_⟩ := later.pending f pending
    by_cases same : f = fn
    · obtain ⟨_, foundDone, isDone⟩ := done
      obtain ⟨_, foundOpen, isOpen⟩ := pending
      rw [same, foundDone] at foundOpen
      cases foundOpen
      rw [isDone] at isOpen
      cases isOpen
    · exact ⟨info, (if_neg same).symm.trans found, open_⟩

theorem Done.settle (memo : LeafMemo count) (fn : Fin count) (leaf : Bool) :
    Done (memo.write memo.size fn ⟨leaf, true⟩) fn := by
  rw [LeafMemo.write_fresh]
  exact ⟨⟨leaf, true⟩, if_pos rfl, rfl⟩

/-! ## What the walk finds -/

section Discover
variable {graph : CallGraph count}

theorem discoverCallees_grows
    {visit : Fin count → List (Fin count) → List (Fin count) × List (Return count)}
    (visits : ∀ f found g, g ∈ found → g ∈ (visit f found).1) (discovered : Nat)
    (callees found : List (Fin count)) :
    ∀ g ∈ found, g ∈ (discoverCallees visit discovered callees found).1 := by
  induction callees generalizing found with
  | nil => exact fun _ member => member
  | cons callee callees ih =>
      intro g member
      exact ih _ g (visits callee found g member)

theorem discover_grows (fuel : Nat) (f : Fin count) (found : List (Fin count)) :
    ∀ g ∈ found, g ∈ (discover graph fuel f found).1 := by
  induction fuel generalizing f found with
  | zero => exact fun _ member => member
  | succ fuel ih =>
      intro g member
      have kept : g ∈ found ++ [f] := List.mem_append_left _ member
      unfold discover
      split
      · exact member
      · split
        · exact kept
        · exact discoverCallees_grows (fun f found => ih f found) _ _ _ g kept

/-- The functions that are not found yet. -/
def undiscovered (found : List (Fin count)) : Nat :=
  (List.finRange count).countP fun g => decide (g ∉ found)

theorem undiscovered_le {found found' : List (Fin count)} (grows : ∀ g ∈ found, g ∈ found') :
    undiscovered found' ≤ undiscovered found := by
  apply List.countP_mono_left
  intro g _ missing
  exact decide_eq_true fun member => of_decide_eq_true missing (grows g member)

theorem undiscovered_lt {found : List (Fin count)} {f : Fin count} (missing : f ∉ found) :
    undiscovered (found ++ [f]) < undiscovered found := by
  apply Fallible.countP_lt (x := f)
  · intro g _ missing
    exact decide_eq_true fun member =>
      of_decide_eq_true missing (List.mem_append_left _ member)
  · exact List.mem_finRange f
  · simp
  · simpa using missing

theorem undiscovered_le_count (found : List (Fin count)) : undiscovered found ≤ count := by
  calc undiscovered found ≤ (List.finRange count).length := List.countP_le_length
    _ = count := List.length_finRange

end Discover

/-! ## The walk with its memo -/

section Walk
variable {graph : CallGraph count}

/-- What a call of `is_leaf_fn` answers when no write is lost. -/
structure Answers (graph : CallGraph count) (running : List (Fin count)) (f : Fin count)
    (memo memo' : LeafMemo count) (leaf : Bool) : Prop where
  right : Right graph running memo'
  extends_ : Extends memo memo'
  leaf : leaf = true ↔ CallsLeaves graph f

/-- A call of `is_leaf_fn`: it follows the walk, and loses a write exactly when the walk
says so. -/
def LeafVisitSpec (graph : CallGraph count) (fuel : Nat) : Prop :=
  ∀ f found memo, undiscovered found < fuel → Tracks found memo →
    ∃ leaf memo', isLeafFn graph fuel f memo = some (leaf, memo') ∧
      Tracks (discover graph fuel f found).1 memo' ∧ f ∈ (discover graph fuel f found).1 ∧
      (memo.stray = true → memo'.stray = true) ∧
      ∀ running, memo.stray = false → Right graph running memo →
        (∀ g ∈ running, Relation.TransGen graph.Calls g f) →
        (memo'.stray = false ↔ TableKept graph (discover graph fuel f found).2) ∧
          (memo'.stray = false → Answers graph running f memo memo' leaf)

/-- The body of the loop over the callees of `fn`. -/
abbrev visitCallee (graph : CallGraph count) (fuel table : Nat) (fn : Fin count)
    (memo : LeafMemo count) (callee : Fin count) : Option (LeafMemo count) := do
  let (leaf, memo) ← isLeafFn graph fuel callee memo
  pure (if leaf then memo else memo.write table fn ⟨false, true⟩)

theorem visitCallees_spec {fuel : Nat} (visit : LeafVisitSpec graph fuel) {fn : Fin count}
    (discovered : Nat) (callees : List (Fin count)) :
    ∀ found memo, (∀ c ∈ callees, graph.Calls fn c) → undiscovered found < fuel → fn ∈ found →
      Tracks found memo →
      ∃ memo', callees.foldlM (visitCallee graph fuel (tableSize discovered) fn) memo = some memo' ∧
        Tracks (discoverCallees (discover graph fuel) discovered callees found).1 memo' ∧
        (memo.stray = true → memo'.stray = true) ∧
        ∀ running, memo.stray = false → Right graph (fn :: running) memo →
          (∀ g ∈ running, Relation.TransGen graph.Calls g fn) →
          (memo'.stray = false ↔
            TableKept graph (discoverCallees (discover graph fuel) discovered callees found).2) ∧
          (memo'.stray = false → Right graph (fn :: running) memo' ∧ Extends memo memo' ∧
            ((∀ c ∈ callees, CallsLeaves graph c) ∨ Done memo' fn)) := by
  induction callees with
  | nil =>
      intro found memo _ _ _ tracks
      refine ⟨memo, rfl, tracks, id, ?_⟩
      intro running clean right _
      refine ⟨?_, fun _ => ⟨right, Extends.refl memo, Or.inl (by simp)⟩⟩
      simp [discoverCallees, TableKept, clean]
  | cons callee callees ih =>
      intro found memo calls enough member tracks
      obtain ⟨leaf, next, ran, tracksNext, -, strayNext, answers⟩ :=
        visit callee found memo enough tracks
      have grows : ∀ g ∈ found, g ∈ (discover graph fuel callee found).1 :=
        discover_grows fuel callee found
      have memberNext := grows fn member
      -- the write that follows, which is lost if the table has grown
      let after := if leaf then next else next.write (tableSize discovered) fn ⟨false, true⟩
      have tracksAfter : Tracks (discover graph fuel callee found).1 after := by
        cases leaf with
        | true => exact tracksNext
        | false => exact tracksNext.write memberNext _
      obtain ⟨last, ranRest, tracksLast, strayLast, rest⟩ :=
        ih (discover graph fuel callee found).1 after
          (fun c inside => calls c (List.mem_cons_of_mem _ inside))
          (Nat.lt_of_le_of_lt (undiscovered_le grows) enough) memberNext tracksAfter
      have strayAfter : next.stray = true → after.stray = true := by
        intro stray
        simp only [after, LeafMemo.write]
        split
        · exact stray
        · split
          · exact stray
          · rfl
      refine ⟨last, ?_, tracksLast, fun stray => strayLast (strayAfter (strayNext stray)), ?_⟩
      · rw [List.foldlM_cons]
        simp only [visitCallee, ran]
        exact ranRest
      · intro running clean right reach
        have reachCallee : ∀ g ∈ fn :: running, Relation.TransGen graph.Calls g callee := by
          intro g inside
          have call := calls callee List.mem_cons_self
          cases List.mem_cons.mp inside with
          | inl same => exact same ▸ Relation.TransGen.single call
          | inr outer => exact (reach g outer).tail call
        obtain ⟨strayIff, answer⟩ := answers (fn :: running) clean right reachCallee
        change (last.stray = false ↔ TableKept graph ((discover graph fuel callee found).2 ++
          ⟨discovered, (discover graph fuel callee found).1.length, callee⟩ ::
            (discoverCallees (discover graph fuel) discovered callees
              (discover graph fuel callee found).1).2)) ∧ _
        rw [tableKept_append, tableKept_cons, ← strayIff, ← tracksNext.size]
        cases strayed : next.stray with
        | true =>
            have lost := strayLast (strayAfter strayed)
            simp [lost]
        | false =>
            have answered := answer strayed
            cases leafEq : leaf with
            | true =>
                have leaves := answered.leaf.mp leafEq
                have same : after = next := by simp [after, leafEq]
                rw [same] at rest
                obtain ⟨strayRest, finish⟩ := rest running strayed answered.right reach
                refine ⟨?_, ?_⟩
                · rw [strayRest]
                  simp [leaves]
                · intro kept
                  obtain ⟨rightLast, extendsLast, either⟩ := finish kept
                  refine ⟨rightLast, answered.extends_.trans extendsLast, ?_⟩
                  cases either with
                  | inl others => exact Or.inl (List.forall_mem_cons.mpr ⟨leaves, others⟩)
                  | inr done => exact Or.inr done
            | false =>
                have noLeaf : ¬ CallsLeaves graph callee := by
                  rw [← answered.leaf, leafEq]
                  exact Bool.false_ne_true
                have noLeafFn : ¬ CallsLeaves graph fn := fun leaves =>
                  noLeaf (leaves.callee (calls callee List.mem_cons_self))
                have written : after = next.write (tableSize discovered) fn ⟨false, true⟩ := by
                  simp [after, leafEq]
                by_cases kept : tableSize discovered = next.size
                · rw [kept] at written
                  have settled : Right graph running after := by
                    rw [written]
                    exact answered.right.settle (by simp [noLeafFn])
                  have extendsAfter : Extends memo after := by
                    rw [written]
                    exact answered.extends_.trans (Extends.settle next fn false)
                  have cleanAfter : after.stray = false := by
                    rw [written, LeafMemo.write_fresh]
                    exact strayed
                  have doneAfter : Done after fn := by
                    rw [written, LeafMemo.write_fresh]
                    exact ⟨⟨false, true⟩, if_pos rfl, rfl⟩
                  obtain ⟨strayRest, finish⟩ := rest running cleanAfter (settled.weaken fn) reach
                  refine ⟨?_, ?_⟩
                  · rw [strayRest]
                    simp [kept]
                  · intro keptLast
                    obtain ⟨rightLast, extendsLast, -⟩ := finish keptLast
                    exact ⟨rightLast, extendsAfter.trans extendsLast,
                      Or.inr (extendsLast.done fn doneAfter)⟩
                · have lost : last.stray = true := by
                    apply strayLast
                    rw [written, LeafMemo.write_stale kept]
                  simp [lost, noLeaf, kept]

theorem isLeafFn_open {fuel : Nat} {fn : Fin count} {memo : LeafMemo count}
    (missing : memo.info fn = none) (ruled : (graph fn).ruledOut = false) :
    isLeafFn graph (fuel + 1) fn memo =
      ((graph fn).callees.foldlM
        (visitCallee graph fuel (memo.insert fn ⟨false, false⟩).size fn)
        (memo.insert fn ⟨false, false⟩)).bind fun memo =>
        match memo.info fn with
        | some found =>
            if !found.done then some (true, memo.write memo.size fn ⟨true, true⟩)
            else some (found.isLeaf, memo)
        | none => none := by
  rw [isLeafFn, missing]
  simp only [ruled, Bool.false_eq_true, if_false]
  rfl

theorem leafVisit_spec (graph : CallGraph count) (fuel : Nat) : LeafVisitSpec graph fuel := by
  induction fuel with
  | zero => exact fun _ _ _ enough => absurd enough (Nat.not_lt_zero _)
  | succ fuel ih =>
      intro f found memo enough tracks
      by_cases member : f ∈ found
      · obtain ⟨info, entry⟩ := tracks.get member
        have walk : discover graph (fuel + 1) f found = (found, []) := by
          simp [discover, member]
        rw [walk]
        cases isDone : info.done with
        | true =>
            refine ⟨info.isLeaf, memo, ?_, tracks, member, id, ?_⟩
            · simp [isLeafFn, entry, isDone]
            · intro running clean right _
              refine ⟨by simp [clean, TableKept], fun _ => ⟨right, Extends.refl memo, ?_⟩⟩
              exact right.settled f info entry isDone
        | false =>
            refine ⟨false, memo.write memo.size f ⟨false, true⟩, ?_, tracks.write member _,
              member, ?_, ?_⟩
            · simp [isLeafFn, entry, isDone]
            · intro stray
              rw [LeafMemo.write_fresh]
              exact stray
            · intro running clean right reach
              -- the call of `f` is running, so the walk has come around a cycle
              have noLeaf : ¬ CallsLeaves graph f := fun leaves =>
                leaves.acyclic (reach f (right.pending f ⟨info, entry, isDone⟩))
              have answer : false = true ↔ CallsLeaves graph f := by simp [noLeaf]
              refine ⟨?_, fun _ => ⟨(right.weaken f).settle answer,
                Extends.settle memo f false, answer⟩⟩
              rw [LeafMemo.write_fresh]
              simp [clean, TableKept]
      · have missing : memo.info f = none := by
          rw [← Option.not_isSome_iff_eq_none, tracks.keys f]
          exact member
        have entered : Tracks (found ++ [f]) (memo.insert f ⟨false, false⟩) :=
          tracks.insert f ⟨false, false⟩
        have inside : f ∈ found ++ [f] := List.mem_append_right _ List.mem_cons_self
        cases ruled : (graph f).ruledOut with
        | true =>
            have walk : discover graph (fuel + 1) f found = (found ++ [f], []) := by
              simp [discover, member, ruled]
            rw [walk]
            refine ⟨false, (memo.insert f ⟨false, false⟩).write
              (memo.insert f ⟨false, false⟩).size f ⟨false, true⟩, ?_, entered.write inside _,
              inside, ?_, ?_⟩
            · simp only [isLeafFn, missing, ruled, if_true]
            · intro stray
              rw [LeafMemo.write_fresh]
              exact stray
            · intro running clean right _
              have answer : false = true ↔ CallsLeaves graph f := by
                constructor
                · intro impossible
                  cases impossible
                · intro leaves
                  rw [← ruled, leaves.not_ruledOut]
              refine ⟨?_, fun _ => ⟨(right.insert f).settle answer, ?_, answer⟩⟩
              · rw [LeafMemo.write_fresh]
                simpa [TableKept, LeafMemo.insert] using clean
              · exact Extends.of_insert missing (Extends.settle _ f false) (Done.settle _ f false)
        | false =>
            have walk : discover graph (fuel + 1) f found =
                discoverCallees (discover graph fuel) (found ++ [f]).length (graph f).callees
                  (found ++ [f]) := by
              simp [discover, member, ruled]
            rw [walk]
            have enoughInner : undiscovered (found ++ [f]) < fuel := by
              have := undiscovered_lt member
              omega
            obtain ⟨last, ranCallees, tracksLast, strayLast, rest⟩ :=
              visitCallees_spec ih (found ++ [f]).length (graph f).callees
                (found ++ [f]) (memo.insert f ⟨false, false⟩) (fun _ called => called)
                enoughInner inside entered
            have insideLast : f ∈ (discoverCallees (discover graph fuel) (found ++ [f]).length
                (graph f).callees (found ++ [f])).1 :=
              discoverCallees_grows (discover_grows fuel) _ _ _ f inside
            obtain ⟨info, entry⟩ := tracksLast.get insideLast
            rw [← entered.size] at ranCallees
            cases isDone : info.done with
            | true =>
                refine ⟨info.isLeaf, last, ?_, tracksLast, insideLast, strayLast, ?_⟩
                · rw [isLeafFn_open missing ruled, ranCallees]
                  simp [entry, isDone]
                · intro running clean right reach
                  obtain ⟨strayIff, finish⟩ := rest running clean (right.insert f) reach
                  refine ⟨strayIff, ?_⟩
                  intro kept
                  obtain ⟨rightLast, extendsLast, -⟩ := finish kept
                  have done : Done last f := ⟨info, entry, isDone⟩
                  refine ⟨⟨rightLast.settled, ?_⟩, Extends.of_insert missing extendsLast done,
                    rightLast.settled f info entry isDone⟩
                  intro g pending
                  refine (List.mem_cons.mp (rightLast.pending g pending)).resolve_left ?_
                  intro same
                  obtain ⟨found, foundOpen, isOpen⟩ := pending
                  rw [same, entry] at foundOpen
                  cases foundOpen
                  rw [isDone] at isOpen
                  cases isOpen
            | false =>
                refine ⟨true, last.write last.size f ⟨true, true⟩, ?_, tracksLast.write insideLast _,
                  insideLast, ?_, ?_⟩
                · rw [isLeafFn_open missing ruled, ranCallees]
                  simp [entry, isDone]
                · intro stray
                  rw [LeafMemo.write_fresh]
                  exact strayLast stray
                · intro running clean right reach
                  obtain ⟨strayIff, finish⟩ := rest running clean (right.insert f) reach
                  rw [LeafMemo.write_fresh]
                  refine ⟨strayIff, ?_⟩
                  intro kept
                  obtain ⟨rightLast, extendsLast, either⟩ := finish kept
                  have leaves : CallsLeaves graph f := by
                    cases either with
                    | inl all => exact ⟨ruled, all⟩
                    | inr done =>
                        obtain ⟨_, foundDone, doneTrue⟩ := done
                        rw [entry] at foundDone
                        cases foundDone
                        rw [isDone] at doneTrue
                        cases doneTrue
                  have answer : true = true ↔ CallsLeaves graph f := by simp [leaves]
                  rw [← LeafMemo.write_fresh]
                  exact ⟨rightLast.settle answer,
                    Extends.of_insert missing (extendsLast.trans (Extends.settle last f true))
                      (Done.settle last f true), answer⟩

end Walk

/-! ## The pass -/

section Pass

theorem markLeafFunctions_spec (input : LeafInput count) (graph : CallGraph count)
    (order : List (Fin count)) :
    ∀ found memo, Tracks found memo →
      ∃ marks memo', markLeafFunctions input graph order memo = some (marks, memo') ∧
        (memo.stray = true → memo'.stray = true) ∧
        (memo.stray = false → Right graph [] memo →
          (memo'.stray = false ↔ TableKept graph (discoverAll graph order found).2) ∧
            (memo'.stray = false → ∀ f leaf, (f, leaf) ∈ marks ↔
              f ∈ order ∧ (leaf = true ↔ CallsLeaves graph f ∧ keepsLeaf input f = true))) := by
  induction order with
  | nil =>
      intro found memo _
      refine ⟨[], memo, rfl, id, fun clean _ => ⟨?_, fun _ => by simp⟩⟩
      simp [discoverAll, TableKept, clean]
  | cons fn order ih =>
      intro found memo tracks
      have enough : undiscovered found < count + 1 :=
        Nat.lt_succ_of_le (undiscovered_le_count found)
      obtain ⟨leaf, next, ran, tracksNext, -, strayNext, answers⟩ :=
        leafVisit_spec graph (count + 1) fn found memo enough tracks
      obtain ⟨marks, last, ranRest, strayLast, rest⟩ := ih _ next tracksNext
      refine ⟨(fn, leaf && keepsLeaf input fn) :: marks, last, ?_,
        fun stray => strayLast (strayNext stray), ?_⟩
      · simp only [markLeafFunctions, ran]
        change (markLeafFunctions input graph order next).bind _ = _
        rw [ranRest]
        rfl
      · intro clean right
        obtain ⟨strayIff, answer⟩ := answers [] clean right (by simp)
        change (last.stray = false ↔ TableKept graph ((discover graph (count + 1) fn found).2 ++
          (discoverAll graph order (discover graph (count + 1) fn found).1).2)) ∧ _
        rw [tableKept_append, ← strayIff]
        cases strayed : next.stray with
        | true => simp [strayLast strayed]
        | false =>
            have answered := answer strayed
            obtain ⟨strayRest, marked⟩ := rest strayed answered.right
            refine ⟨by simp [strayRest], ?_⟩
            intro kept f mark
            rw [List.mem_cons, marked kept f mark, List.mem_cons]
            have here : (leaf && keepsLeaf input fn) = true ↔
                CallsLeaves graph fn ∧ keepsLeaf input fn = true := by
              rw [Bool.and_eq_true, answered.leaf]
            constructor
            · intro listed
              cases listed with
              | inl first =>
                  cases first
                  exact ⟨Or.inl rfl, here⟩
              | inr later => exact ⟨Or.inr later.1, later.2⟩
            · intro listed
              obtain ⟨either, meaning⟩ := listed
              cases either with
              | inl same =>
                  left
                  rw [same] at meaning ⊢
                  exact congrArg (Prod.mk fn) (Bool.eq_iff_iff.mpr (meaning.trans here.symm))
              | inr later => exact Or.inr ⟨later, meaning⟩

/-- The contract of the annotation, and of the memo behind it. -/
structure LeafSound (input : LeafInput count) (graph : CallGraph count)
    (marks : List (Fin count × Bool)) (memo : LeafMemo count) : Prop where
  direct : ∀ f, (f, true) ∈ marks → .indirect ∉ input.calls f
  leaves : ∀ f, (f, true) ∈ marks → ∀ g, .direct g ∈ input.calls f → (g, true) ∈ marks
  acyclic : ∀ f, (f, true) ∈ marks → ¬ Relation.TransGen graph.Calls f f
  joins : ∀ f, (f, true) ∈ marks → ∀ join ∈ input.joins f, ∃ i control,
    join = .param (some i) ∧ (input.controls f)[i]? = some control ∧
      isControlStatic control = true
  memo : memo.stray = false

/-- No function that would be a leaf calls one that only its own joins keep from being a
leaf, and the table never grows before the return from a callee that is no leaf. -/
structure LeavesSettled (input : LeafInput count) (graph : CallGraph count)
    (order : List (Fin count)) : Prop where
  joins : ∀ f ∈ order, CallsLeaves graph f → keepsLeaf input f = true →
    ∀ g, graph.Calls f g → keepsLeaf input g = true
  table : TableKept graph (discoverAll graph order []).2

theorem joinsInside_iff {controls : List ControlUses} {join : JoinOperand} :
    joinsInside controls join = true ↔ ∃ i control,
      join = .param (some i) ∧ controls[i]? = some control ∧ isControlStatic control = true := by
  cases join with
  | other => simp [joinsInside, getControlForJp]
  | param control =>
      cases control with
      | none => simp [joinsInside, getControlForJp]
      | some i =>
          cases found : controls[i]? with
          | none => simp [joinsInside, getControlForJp, found]
          | some control => simp [joinsInside, getControlForJp, found]

/-- The annotation is sound exactly when the leaves are settled. The pass comes to each
function that a function it has come to calls. -/
theorem leafSound_iff_leavesSettled (input : LeafInput count) (onCycle : Fin count → Bool)
    (order : List (Fin count))
    (closed : ∀ f ∈ order, ∀ g, .direct g ∈ input.calls f → g ∈ order) :
    ∃ marks memo, markLeafFunctions input (newCallgraph input.toCallGraphInput onCycle) order
        (LeafMemo.new count) = some (marks, memo) ∧
      (LeafSound input (newCallgraph input.toCallGraphInput onCycle) marks memo ↔
        LeavesSettled input (newCallgraph input.toCallGraphInput onCycle) order) := by
  have fresh : Right (newCallgraph input.toCallGraphInput onCycle) [] (LeafMemo.new count) := by
    constructor
    · intro f info found
      cases found
    · intro f pending
      obtain ⟨info, found, -⟩ := pending
      cases found
  obtain ⟨marks, memo, ran, -, spec⟩ :=
    markLeafFunctions_spec input (newCallgraph input.toCallGraphInput onCycle) order []
      (LeafMemo.new count) Tracks.new
  obtain ⟨strayIff, marked⟩ := spec rfl fresh
  refine ⟨marks, memo, ran, ?_⟩
  constructor
  · intro sound
    have markedIff := marked sound.memo
    refine ⟨?_, strayIff.mp sound.memo⟩
    intro f inOrder leaves keeps g calls
    have mark : (f, true) ∈ marks := (markedIff f true).mpr ⟨inOrder, by simp [leaves, keeps]⟩
    have callee := (markedIff g true).mp (sound.leaves f mark g (mem_callees.mp calls))
    exact (callee.2.mp rfl).2
  · intro settled
    have clean := strayIff.mpr settled.table
    have meaning : ∀ f, (f, true) ∈ marks → f ∈ order ∧
        CallsLeaves (newCallgraph input.toCallGraphInput onCycle) f ∧ keepsLeaf input f = true := by
      intro f mark
      obtain ⟨inOrder, iff⟩ := (marked clean f true).mp mark
      exact ⟨inOrder, iff.mp rfl⟩
    refine ⟨?_, ?_, ?_, ?_, clean⟩
    · intro f mark indirect
      obtain ⟨-, leaves, -⟩ := meaning f mark
      have ruled := leaves.not_ruledOut
      rw [CGNode.ruledOut, callsIndirect_iff.mpr indirect, Bool.or_true] at ruled
      cases ruled
    · intro f mark g calls
      obtain ⟨inOrder, leaves, keeps⟩ := meaning f mark
      have call : (newCallgraph input.toCallGraphInput onCycle).Calls f g :=
        mem_callees.mpr calls
      apply (marked clean g true).mpr
      refine ⟨closed f inOrder g calls, ?_⟩
      simp [leaves.callee call, settled.joins f inOrder leaves keeps g call]
    · intro f mark
      exact (meaning f mark).2.1.acyclic
    · intro f mark join member
      have keeps := (meaning f mark).2.2
      rw [keepsLeaf, Bool.and_eq_true, List.all_eq_true, List.all_eq_true] at keeps
      exact joinsInside_iff.mp (keeps.2 join member)

local instance twoNeZero : NeZero 2 := ⟨by decide⟩

/-- A function that calls another one, in which a control has the uses `uses` of its join
point and one join on it. -/
def callOfControl (uses : List JoinPointUse) : LeafInput 2 where
  calls f := if f = 0 then [.direct 1] else []
  addressUsed _ := false
  controls f := if f = 0 then [] else [⟨uses⟩]
  joins f := if f = 0 then [] else [.param (some 0)]

abbrev callOfControlGraph (uses : List JoinPointUse) : CallGraph 2 :=
  newCallgraph (callOfControl uses).toCallGraphInput fun _ => false

theorem leafCall_sound : ∃ marks memo,
    markLeafFunctions (callOfControl [.joinPoint]) (callOfControlGraph [.joinPoint]) [0, 1]
        (LeafMemo.new 2) = some (marks, memo) ∧
      marks = [(0, true), (1, true)] ∧
      LeafSound (callOfControl [.joinPoint]) (callOfControlGraph [.joinPoint]) marks memo := by
  obtain ⟨marks, memo, ran, sound⟩ :=
    leafSound_iff_leavesSettled (callOfControl [.joinPoint]) (fun _ => false) [0, 1] (by decide)
  have result : (markLeafFunctions (callOfControl [.joinPoint])
      (callOfControlGraph [.joinPoint]) [0, 1] (LeafMemo.new 2)).map Prod.fst =
      some [(0, true), (1, true)] := by decide
  have keeps : ∀ f, keepsLeaf (callOfControl [.joinPoint]) f = true := by decide
  have returns : (discoverAll (callOfControlGraph [.joinPoint]) [0, 1] []).2 = [⟨1, 2, 1⟩] := by
    decide
  refine ⟨marks, memo, ran, ?_, sound.mpr ⟨fun _ _ _ _ g _ => keeps g, ?_⟩⟩
  · rw [ran] at result
    exact Option.some.inj result
  · rw [returns]
    intro r member _
    cases List.mem_singleton.mp member
    rfl

/-- The callee loses its annotation when its body is rewritten, after the caller got its own. -/
theorem lateLoss_keeps_caller : ¬ ∀ (count : Nat) (input : LeafInput count)
    (onCycle : Fin count → Bool) (order : List (Fin count)),
    (∀ f ∈ order, ∀ g, .direct g ∈ input.calls f → g ∈ order) →
    ∀ marks memo, markLeafFunctions input (newCallgraph input.toCallGraphInput onCycle) order
      (LeafMemo.new count) = some (marks, memo) →
    LeafSound input (newCallgraph input.toCallGraphInput onCycle) marks memo := by
  intro always
  have result : (markLeafFunctions (callOfControl [.other])
      (callOfControlGraph [.other]) [0, 1] (LeafMemo.new 2)).map Prod.fst =
      some [(0, true), (1, false)] := by decide
  obtain ⟨⟨marks, memo⟩, ran, equal⟩ := Option.map_eq_some_iff.mp result
  change marks = _ at equal
  have sound := always 2 (callOfControl [.other]) (fun _ => false) [0, 1] (by decide) marks memo ran
  have callee := sound.leaves 0 (by simp [equal]) 1 (by decide)
  rw [equal] at callee
  exact absurd callee (by decide)

/-- Growing the table loses a write: the last of twenty callees is no leaf, and the caller
is marked. -/
example :
    let input : LeafInput 21 :=
      { calls := fun f =>
          if f = 0 then (List.finRange 21).tail.map Callee.direct
          else if f = 20 then [.indirect] else []
        addressUsed := fun _ => false
        controls := fun _ => []
        joins := fun _ => [] }
    (isLeafFn (newCallgraph input.toCallGraphInput fun _ => false) 3 0 (LeafMemo.new 21)).map
      (fun answer => (answer.1, answer.2.stray)) = some (true, true) := by decide +kernel

end Pass

end Shady
