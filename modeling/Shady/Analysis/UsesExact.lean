import Shady.Analysis.Uses
import Shady.Library.Search
import Mathlib.Data.List.Nodup
import Mathlib.Tactic.ByContra

/-!
# The uses map is exact

The uses are found in an order, with the node that each is a use of: the list of a node is the part of
this log that is about it. A cell leads to the next place of the log with its node. Each visit adds to
the log what the nodes that it sees for the first time hold.
-/

set_option autoImplicit false

namespace Shady.Uses

open Stateful

variable {N : Type}

/-! ## The lists -/

/-- The uses that were found, with what they use. -/
abbrev Log (N : Type) := List (Use N × N)

/-- What the use at a place of the log uses. -/
def target (log : Log N) (place : Nat) : Option N := log[place]?.map Prod.snd

/-- The first use of a node at a place or behind it. -/
def IsNext (log : Log N) (n : N) (start : Nat) : Option Nat → Prop
  | none => ∀ k, start ≤ k → target log k ≠ some n
  | some place => start ≤ place ∧ target log place = some n ∧
      ∀ k, start ≤ k → k < place → target log k ≠ some n

/-- The map holds the log. -/
structure Represents (map : UsesMap N) (log : Log N) : Prop where
  length : map.cells.length = log.length
  cell : ∀ place use n, log[place]? = some (use, n) →
    ∃ next, map.cells[place]? = some ⟨use, next⟩ ∧ IsNext log n (place + 1) next
  first : ∀ n, IsNext log n 0 (map.map n)

theorem target_lt {log : Log N} {place : Nat} {n : N} (found : target log place = some n) :
    place < log.length := by
  by_contra outside
  rw [target, List.getElem?_eq_none (Nat.not_lt.mp outside)] at found
  exact nomatch found

theorem target_append_lt {log : Log N} {entry : Use N × N} {place : Nat}
    (inside : place < log.length) : target (log ++ [entry]) place = target log place := by
  rw [target, target, List.getElem?_append_left inside]

theorem target_append_length {log : Log N} {entry : Use N × N} :
    target (log ++ [entry]) log.length = some entry.2 := by
  rw [target, List.getElem?_append_right (Nat.le_refl _), Nat.sub_self]
  rfl

/-- A use of another node leaves the next place as it is. -/
theorem IsNext.append_other {log : Log N} {n : N} {start : Nat} {place : Option Nat}
    {entry : Use N × N} (next : IsNext log n start place) (other : entry.2 ≠ n) :
    IsNext (log ++ [entry]) n start place := by
  have same : ∀ k, target (log ++ [entry]) k = some n → target log k = some n := by
    intro k found
    have inside := target_lt found
    rw [List.length_append, List.length_singleton] at inside
    by_cases last : k = log.length
    · rw [last, target_append_length] at found
      exact absurd (Option.some.inj found) other
    · rwa [target_append_lt (by omega)] at found
  cases place with
  | none => exact fun k after found => next k after (same k found)
  | some place =>
      refine ⟨next.1, ?_, fun k after before found => next.2.2 k after before (same k found)⟩
      rw [target_append_lt (target_lt next.2.1)]
      exact next.2.1

/-- A place that is there stays the next one. -/
theorem IsNext.append_some {log : Log N} {n : N} {start place : Nat} {entry : Use N × N}
    (next : IsNext log n start (some place)) :
    IsNext (log ++ [entry]) n start (some place) := by
  have inside := target_lt next.2.1
  refine ⟨next.1, ?_, fun k after before => ?_⟩
  · rw [target_append_lt inside]
    exact next.2.1
  · rw [target_append_lt (Nat.lt_trans before inside)]
    exact next.2.2 k after before

/-- Where there was no further use, the new one is the next. -/
theorem IsNext.append_none {log : Log N} {n : N} {start : Nat} {use : Use N}
    (next : IsNext log n start none) (inside : start ≤ log.length) :
    IsNext (log ++ [(use, n)]) n start (some log.length) := by
  refine ⟨inside, target_append_length, fun k after before => ?_⟩
  rw [target_append_lt before]
  exact next k after

theorem IsNext.unique {log : Log N} {n : N} {start : Nat} {place place' : Option Nat}
    (next : IsNext log n start place) (next' : IsNext log n start place') : place = place' := by
  cases place with
  | none =>
      cases place' with
      | none => rfl
      | some place' => exact absurd next'.2.1 (next place' next'.1)
  | some place =>
      cases place' with
      | none => exact absurd next.2.1 (next' place next.1)
      | some place' =>
          have notBefore := next'.2.2 place next.1
          have notAfter := next.2.2 place' next'.1
          have same : place = place' := by
            by_contra apart
            cases Nat.lt_or_gt_of_ne apart with
            | inl before => exact notBefore before next.2.1
            | inr after => exact notAfter after next'.2.1
          rw [same]

/-- From a use of a node on, the loop finds the last one. -/
theorem Represents.lastFrom {map : UsesMap N} {log : Log N} (represents : Represents map log)
    {n : N} (fuel : Nat) : ∀ {place : Nat}, log.length - place ≤ fuel →
      target log place = some n → ∃ last, lastFrom map.cells fuel place = .ok last ∧
        target log last = some n ∧ IsNext log n (last + 1) none := by
  induction fuel with
  | zero =>
      intro place enough here
      have inside := target_lt here
      omega
  | succ fuel ih =>
      intro place enough here
      have inside := target_lt here
      have entry := here
      rw [target, Option.map_eq_some_iff] at entry
      obtain ⟨⟨use, m⟩, entry, rfl⟩ := entry
      obtain ⟨next, cell, isNext⟩ := represents.cell place use m entry
      rw [Uses.lastFrom, cell]
      cases next with
      | none => exact ⟨place, rfl, here, isNext⟩
      | some next =>
          have after := isNext.1
          exact ih (by omega) isNext.2.1

theorem Represents.lastUse {map : UsesMap N} {log : Log N} (represents : Represents map log)
    (n : N) : ∃ last, map.lastUse n = .ok last ∧ match last with
      | none => IsNext log n 0 none
      | some last => target log last = some n ∧ IsNext log n (last + 1) none := by
  have first := represents.first n
  rw [UsesMap.lastUse, UsesMap.firstUse]
  cases found : map.map n with
  | none =>
      rw [found] at first
      exact ⟨none, rfl, first⟩
  | some place =>
      rw [found] at first
      obtain ⟨last, ran, here, isLast⟩ := represents.lastFrom map.cells.length
        (by rw [represents.length]; omega) first.2.1
      refine ⟨some last, ?_, here, isLast⟩
      change (Uses.lastFrom map.cells map.cells.length place).map some = _
      rw [ran]
      rfl

variable [DecidableEq N]

/-- The uses of a node from a place of the log on. -/
def usesFrom (log : Log N) (n : N) (start : Nat) : List (Use N) :=
  ((log.drop start).filter fun entry => entry.2 = n).map Prod.fst

theorem usesFrom_succ {log : Log N} {n : N} {start : Nat} {use : Use N}
    (found : log[start]? = some (use, n)) :
    usesFrom log n start = use :: usesFrom log n (start + 1) := by
  obtain ⟨inside, here⟩ := List.getElem?_eq_some_iff.mp found
  rw [usesFrom, List.drop_eq_getElem_cons inside, here]
  simp [usesFrom]

theorem usesFrom_skip {log : Log N} {n : N} {start : Nat} (inside : start < log.length)
    (other : target log start ≠ some n) : usesFrom log n start = usesFrom log n (start + 1) := by
  rw [target, List.getElem?_eq_getElem inside] at other
  rw [usesFrom, List.drop_eq_getElem_cons inside, List.filter_cons_of_neg]
  · rfl
  · simpa using other

theorem usesFrom_end {log : Log N} {n : N} {start : Nat} (outside : log.length ≤ start) :
    usesFrom log n start = [] := by
  rw [usesFrom, List.drop_eq_nil_of_le outside]
  rfl

/-- What is read from the next place is what the log holds from there on; by induction on the rest of
the log. -/
theorem Represents.lists {map : UsesMap N} {log : Log N} (represents : Represents map log) {n : N}
    (left : Nat) : ∀ {start : Nat} {place : Option Nat}, log.length - start ≤ left →
      IsNext log n start place → Lists map.cells place (usesFrom log n start) := by
  induction left with
  | zero =>
      intro start place done next
      rw [usesFrom_end (by omega)]
      cases place with
      | none => exact .none
      | some place =>
          have inside := target_lt next.2.1
          have after := next.1
          omega
  | succ left ih =>
      intro start place rest next
      by_cases inside : start < log.length
      · by_cases here : target log start = some n
        · have found : IsNext log n start (some start) :=
            ⟨Nat.le_refl _, here, fun k after before => absurd after (Nat.not_le.mpr before)⟩
          rw [next.unique found]
          rw [target, Option.map_eq_some_iff] at here
          obtain ⟨⟨use, m⟩, entry, rfl⟩ := here
          obtain ⟨further, cell, later⟩ := represents.cell start use m entry
          rw [usesFrom_succ entry]
          exact .some cell (ih (by omega) later)
        · rw [usesFrom_skip inside here]
          refine ih (by omega) ?_
          cases place with
          | none => exact fun k after => next k (by omega)
          | some place =>
              have apart : start ≠ place := fun same => here (same ▸ next.2.1)
              have after := next.1
              exact ⟨by omega, next.2.1, fun k after => next.2.2 k (by omega)⟩
      · rw [usesFrom_end (Nat.not_lt.mp inside)]
        cases place with
        | none => exact .none
        | some place =>
            have within := target_lt next.2.1
            have after := next.1
            omega

omit [DecidableEq N] in
theorem entry_append {log : Log N} {entry found : Use N × N} {place : Nat}
    (held : (log ++ [entry])[place]? = some found) :
    log[place]? = some found ∨ place = log.length ∧ found = entry := by
  by_cases inside : place < log.length
  · rw [List.getElem?_append_left inside] at held
    exact .inl held
  · rw [List.getElem?_append_right (Nat.not_lt.mp inside), List.getElem?_singleton] at held
    split_ifs at held with atEnd
    exact .inr ⟨by omega, (Option.some.inj held).symm⟩

omit [DecidableEq N] in
/-- The use at the end has none behind it. -/
theorem isNext_end {log : Log N} {n : N} {start : Nat} (outside : log.length ≤ start) :
    IsNext log n start none := by
  intro k after found
  have inside := target_lt found
  omega

/-- A new use comes to the end of the list of what it uses: as the first one. -/
theorem Represents.link_first {map : UsesMap N} {log : Log N} (represents : Represents map log)
    {use : Use N} {op : N} (unused : IsNext log op 0 none) :
    Represents (map.link none use op) (log ++ [(use, op)]) := by
  have length := represents.length
  refine ⟨by simp [UsesMap.link, length], fun place use' n entry => ?_, fun n => ?_⟩
  · cases entry_append entry with
    | inl before =>
        obtain ⟨next, cell, isNext⟩ := represents.cell place use' n before
        refine ⟨next, ?_, isNext.append_other ?_⟩
        · rw [UsesMap.link, List.getElem?_append_left (List.getElem?_eq_some_iff.mp cell).1, cell]
        · intro same
          refine unused place (Nat.zero_le _) ?_
          rw [target, before, ← same]
          rfl
    | inr atEnd =>
        cases atEnd.2
        refine ⟨none, ?_, isNext_end ?_⟩
        · rw [UsesMap.link, atEnd.1, ← length, List.getElem?_append_right (Nat.le_refl _),
            Nat.sub_self]
          rfl
        · rw [atEnd.1, List.length_append, List.length_singleton]
  · change IsNext _ n 0 (if n = op then some map.cells.length else map.map n)
    by_cases same : n = op
    · rw [if_pos same, same, length]
      exact unused.append_none (Nat.zero_le _)
    · rw [if_neg same]
      exact (represents.first n).append_other fun same' => same same'.symm

/-- A new use comes to the end of the list of what it uses: behind the last one. -/
theorem Represents.link_last {map : UsesMap N} {log : Log N} (represents : Represents map log)
    {use : Use N} {op : N} {last : Nat} (here : target log last = some op)
    (isLast : IsNext log op (last + 1) none) :
    Represents (map.link (some last) use op) (log ++ [(use, op)]) := by
  have length := represents.length
  have inside := target_lt here
  have updated : (map.cells.modify last fun cell =>
      { cell with nextUse := some map.cells.length }).length = log.length := by
    rw [List.length_modify, length]
  refine ⟨by simp [UsesMap.link, length], fun place use' n entry => ?_, fun n => ?_⟩
  · cases entry_append entry with
    | inl before =>
        obtain ⟨next, cell, isNext⟩ := represents.cell place use' n before
        have within := (List.getElem?_eq_some_iff.mp cell).1
        rw [UsesMap.link, List.getElem?_append_left (by omega), List.getElem?_modify, cell]
        by_cases isPlace : last = place
        · subst isPlace
          rw [target, before] at here
          cases Option.some.inj here
          exact ⟨some log.length, by simp [length], isLast.append_none (by omega)⟩
        · refine ⟨next, by simp [isPlace], ?_⟩
          by_cases same : n = op
          · subst same
            cases next with
            | some next => exact isNext.append_some
            | none =>
                have behind : ¬ last + 1 ≤ place := fun after =>
                  isLast place after (by rw [target, before]; rfl)
                exact absurd here (isNext last (by omega))
          · exact isNext.append_other fun same' => same same'.symm
    | inr atEnd =>
        cases atEnd.2
        refine ⟨none, ?_, isNext_end ?_⟩
        · rw [UsesMap.link, List.getElem?_append_right (by omega), updated, atEnd.1, Nat.sub_self]
          rfl
        · rw [atEnd.1, List.length_append, List.length_singleton]
  · have first := represents.first n
    change IsNext _ n 0 (map.map n)
    by_cases same : n = op
    · subst same
      cases found : map.map n with
      | none =>
          rw [found] at first
          exact absurd here (first last (Nat.zero_le _))
      | some place =>
          rw [found] at first
          exact first.append_some
    · exact first.append_other fun same' => same same'.symm

theorem Represents.append {map : UsesMap N} {log : Log N} (represents : Represents map log)
    (use : Use N) (op : N) : ∃ map', (appendUse use op).run map = .ok ((), map') ∧
      Represents map' (log ++ [(use, op)]) ∧ map'.seen = map.seen := by
  obtain ⟨last, ran, isLast⟩ := represents.lastUse op
  refine ⟨map.link last use op, ?_, ?_, ?_⟩
  · rw [appendUse, run_bind_of_ok (run_get map), ran]
    rfl
  · cases last with
    | none => exact represents.link_first isLast
    | some last => exact represents.link_last isLast.1 isLast.2
  · cases last with
    | none => rfl
    | some last => rfl

/-! ## The visit -/

section Operands

variable {ε σ : Type} {visitOpFn : NodeClass → String → N → Nat → Prog σ ε PUnit}

omit [DecidableEq N]

/-- The operands that a field shows to a visitor, with their indices. -/
def Ops.list : Ops N → List (N × Nat)
  | .op held => held.toList.map (·, 0)
  | .ops held => held.zipIdx.filterMap fun op => op.1.map (·, op.2)

/-- The operands of a field that is not excluded, as uses. -/
def Field.uses (exclude : NodeClass) (user : N) (field : Field N) : Log N :=
  match field.opClass with
  | none => []
  | some opClass =>
      if !field.ignore && exclude &&& opClass == 0 then
        field.ops.list.map fun op => (⟨user, opClass, field.name, op.2⟩, op.1)
      else []

/-- The operands of a node that are not excluded, as uses. -/
def uses (g : NodeGraph N) (exclude : NodeClass) (user : N) : Log N :=
  (g.payload user).flatMap (Field.uses exclude user)

def visitUse (visitOpFn : NodeClass → String → N → Nat → Prog σ ε PUnit)
    (entry : Use N × N) : Prog σ ε PUnit :=
  visitOpFn entry.1.operandClass entry.1.operandName entry.2 entry.1.operandIndex

theorem forM_filterMap {α β : Type} (f : α → Option β) (step : β → Prog σ ε PUnit)
    (items : List α) : forM (items.filterMap f) step = forM items fun item =>
      match f item with
      | none => pure ()
      | some found => step found := by
  induction items with
  | nil => rfl
  | cons item rest ih =>
      rw [List.forM_cons, ← ih]
      cases found : f item with
      | none => rw [List.filterMap_cons_none found, pure_bind]
      | some result => rw [List.filterMap_cons_some found, List.forM_cons]

theorem forM_flatMap {α β : Type} (f : α → List β) (step : β → Prog σ ε PUnit) (items : List α) :
    forM (items.flatMap f) step = forM items fun item => forM (f item) step := by
  induction items with
  | nil => rfl
  | cons item rest ih => rw [List.flatMap_cons, List.forM_append, ih, List.forM_cons]

theorem shdVisitOp_eq (opClass : NodeClass) (opName : String) (op : Option N) :
    shdVisitOp visitOpFn opClass opName op 0 =
      forM (Ops.op op).list fun op => visitOpFn opClass opName op.1 op.2 := by
  cases op with
  | none => rfl
  | some op => simp [Ops.list, shdVisitOp]

theorem shdVisitOps_eq (opClass : NodeClass) (opName : String) (ops : List (Option N)) :
    shdVisitOps visitOpFn opClass opName ops =
      forM (Ops.ops ops).list fun op => visitOpFn opClass opName op.1 op.2 := by
  rw [Ops.list, forM_filterMap]
  refine congrArg (List.forM ops.zipIdx) (funext fun op => ?_)
  cases op with
  | mk op index =>
      cases op with
      | none => rfl
      | some op => rfl

/-- The generated visitor goes through the operands that are not excluded. -/
theorem shdVisitNodeOperands_eq (g : NodeGraph N) (exclude : NodeClass) (n : N) :
    shdVisitNodeOperands visitOpFn exclude (g.payload n) =
      forM (uses g exclude n) (visitUse visitOpFn) := by
  rw [uses, forM_flatMap]
  refine congrArg (List.forM (g.payload n)) (funext fun field => ?_)
  rw [Field.uses]
  cases field.opClass with
  | none => rfl
  | some opClass =>
      by_cases shown : (!field.ignore && exclude &&& opClass == 0) = true
      · simp only [shown, if_true]
        rw [List.forM_map]
        cases field.ops with
        | op op => exact shdVisitOp_eq opClass field.name op
        | ops ops => exact shdVisitOps_eq opClass field.name ops
      · simp only [shown]
        rfl

end Operands

variable {g : NodeGraph N} {exclude : NodeClass}

omit [DecidableEq N] in
theorem mem_list_iff {ops : Ops N} {op : N} {index : Nat} :
    (op, index) ∈ ops.list ↔ ops.at index = some op := by
  cases ops with
  | op held =>
      cases held with
      | none => simp [Ops.list, Ops.at]
      | some held =>
          simp only [Ops.list, Ops.at, Option.toList_some, List.map_singleton, List.mem_singleton,
            Prod.mk.injEq]
          split_ifs with isZero
          · simp [isZero, eq_comm]
          · simp [isZero]
  | ops held =>
      rw [Ops.list, Ops.at, Option.join_eq_some_iff, List.mem_filterMap]
      constructor
      · intro shown
        obtain ⟨⟨slot, place⟩, held, found⟩ := shown
        obtain ⟨op', rfl, same⟩ := Option.map_eq_some_iff.mp found
        cases same
        exact List.mk_mem_zipIdx_iff_getElem?.mp held
      · intro found
        exact ⟨(some op, index), List.mk_mem_zipIdx_iff_getElem?.mpr found, rfl⟩

omit [DecidableEq N] in
/-- What the visitor shows is what occurs. -/
theorem mem_uses_iff {n : N} {use : Use N} {op : N} :
    (use, op) ∈ uses g exclude n ↔ use.user = n ∧ Occurs g exclude use op := by
  rw [uses, List.mem_flatMap]
  constructor
  · intro shown
    obtain ⟨field, held, found⟩ := shown
    rw [Field.uses] at found
    cases hasClass : field.opClass with
    | none =>
        rw [hasClass] at found
        exact nomatch found
    | some opClass =>
        rw [hasClass] at found
        simp only at found
        split_ifs at found with shown
        · obtain ⟨⟨op', index⟩, listed, same⟩ := List.mem_map.mp found
          cases same
          rw [Bool.and_eq_true, Bool.not_eq_true', beq_iff_eq] at shown
          exact ⟨rfl, field, held, shown.1, hasClass, shown.2, rfl, mem_list_iff.mp listed⟩
        · exact nomatch found
  · rintro ⟨rfl, field, held, notIgnored, hasClass, notExcluded, named, found⟩
    refine ⟨field, held, ?_⟩
    rw [Field.uses, hasClass]
    simp only [notIgnored, notExcluded]
    refine List.mem_map.mpr ⟨(op, use.operandIndex), mem_list_iff.mpr found, ?_⟩
    rw [named]

theorem filterMap_sublist_map {α β : Type} {f : α → Option β} {key : α → β}
    (keyed : ∀ item found, f item = some found → found = key item) (items : List α) :
    (items.filterMap f).Sublist (items.map key) := by
  induction items with
  | nil => exact List.Sublist.refl _
  | cons item rest ih =>
      rw [List.map_cons]
      cases found : f item with
      | none =>
          rw [List.filterMap_cons_none found]
          exact ih.cons _
      | some result =>
          rw [List.filterMap_cons_some found, keyed item result found]
          exact ih.cons_cons _

omit [DecidableEq N] in
theorem list_nodup (ops : Ops N) : (ops.list.map Prod.snd).Nodup := by
  cases ops with
  | op held =>
      cases held with
      | none => exact List.nodup_nil
      | some held => exact List.nodup_singleton _
  | ops held =>
      have indices : (held.zipIdx.map Prod.snd).Nodup := by
        rw [List.zipIdx_map_snd]
        exact List.nodup_range'
      rw [Ops.list, List.map_filterMap]
      refine indices.sublist (filterMap_sublist_map (fun op index found => ?_) _)
      obtain ⟨op', shown, same⟩ := Option.map_eq_some_iff.mp found
      obtain ⟨held, -, rfl⟩ := Option.map_eq_some_iff.mp shown
      exact same.symm

omit [DecidableEq N] in
theorem field_uses_nodup (n : N) (field : Field N) :
    ((field.uses exclude n).map Prod.fst).Nodup := by
  rw [Field.uses]
  cases field.opClass with
  | none => exact List.nodup_nil
  | some opClass =>
      simp only
      split_ifs
      · rw [List.map_map]
        have indices := list_nodup field.ops
        rw [List.nodup_iff_pairwise_ne, List.pairwise_map] at indices ⊢
        refine indices.imp fun apart same => apart ?_
        exact congrArg Use.operandIndex same
      · exact List.nodup_nil

omit [DecidableEq N] in
theorem field_uses_name {n : N} {field : Field N} {use : Use N}
    (shown : use ∈ (field.uses exclude n).map Prod.fst) : use.operandName = field.name := by
  obtain ⟨entry, found, rfl⟩ := List.mem_map.mp shown
  rw [Field.uses] at found
  cases hasClass : field.opClass with
  | none =>
      rw [hasClass] at found
      exact nomatch found
  | some opClass =>
      rw [hasClass] at found
      simp only at found
      split_ifs at found
      · obtain ⟨op, -, rfl⟩ := List.mem_map.mp found
        rfl
      · exact nomatch found

omit [DecidableEq N] in
/-- No operand is shown twice: the fields have different names, the operands of one field
different indices. -/
theorem uses_nodup (n : N) : ((uses g exclude n).map Prod.fst).Nodup := by
  rw [uses, List.map_flatMap, List.nodup_flatMap]
  refine ⟨fun field _ => field_uses_nodup n field, ?_⟩
  have names := g.names n
  rw [List.nodup_iff_pairwise_ne, List.pairwise_map] at names
  refine names.imp fun apart use first second => apart ?_
  rw [← field_uses_name first, ← field_uses_name second]

/-! ## The search -/

/-- What a visit adds to the map: the uses `shown` by a node that is being visited, and those of the
nodes that are seen for the first time. -/
structure Visited (g : NodeGraph N) (exclude : NodeClass) (ops : List N) (shown : Log N)
    (map map' : UsesMap N) (log log' : Log N) (fresh : List N) : Prop where
  represents : Represents map' log'
  log : log'.Perm (log ++ (shown ++ fresh.flatMap (uses g exclude)))
  seen : map'.seen = fresh ++ map.seen
  nodup : fresh.Nodup
  unseen : ∀ n ∈ fresh, n ∉ map.seen
  met : ∀ op ∈ ops, op ∈ map'.seen
  closed : ∀ n ∈ fresh, ∀ entry ∈ uses g exclude n, entry.2 ∈ map'.seen
  reached : ∀ n ∈ fresh, ∃ op ∈ ops, Reaches g exclude op n

omit [DecidableEq N] in
theorem Visited.refl {map : UsesMap N} {log : Log N} (represents : Represents map log) :
    Visited g exclude [] [] map map log log [] where
  represents := represents
  log := by simp
  seen := rfl
  nodup := List.nodup_nil
  unseen _ member := nomatch member
  met _ member := nomatch member
  closed _ member := nomatch member
  reached _ member := nomatch member

theorem Visited.trans {ops ops' : List N} {shown shown' : Log N} {map map₂ map₃ : UsesMap N}
    {log log₂ log₃ : Log N} {fresh fresh' : List N}
    (first : Visited g exclude ops shown map map₂ log log₂ fresh)
    (second : Visited g exclude ops' shown' map₂ map₃ log₂ log₃ fresh') :
    Visited g exclude (ops ++ ops') (shown ++ shown') map map₃ log log₃ (fresh' ++ fresh) where
  represents := second.represents
  log := by
    rw [List.perm_iff_count]
    intro entry
    have before := first.log.count_eq entry
    have after := second.log.count_eq entry
    simp only [List.count_append, List.flatMap_append] at before after ⊢
    omega
  seen := by rw [second.seen, first.seen, List.append_assoc]
  nodup := by
    refine List.nodup_append.mpr ⟨second.nodup, first.nodup, ?_⟩
    rintro n later m earlier rfl
    refine second.unseen n later ?_
    rw [first.seen]
    exact List.mem_append_left _ earlier
  unseen n member := by
    cases List.mem_append.mp member with
    | inl later =>
        intro before
        refine second.unseen n later ?_
        rw [first.seen]
        exact List.mem_append_right _ before
    | inr earlier => exact first.unseen n earlier
  met op member := by
    cases List.mem_append.mp member with
    | inl earlier =>
        rw [second.seen]
        exact List.mem_append_right _ (first.met op earlier)
    | inr later => exact second.met op later
  closed n member entry held := by
    cases List.mem_append.mp member with
    | inl later => exact second.closed n later entry held
    | inr earlier =>
        rw [second.seen]
        exact List.mem_append_right _ (first.closed n earlier entry held)
  reached n member := by
    cases List.mem_append.mp member with
    | inl later =>
        obtain ⟨op, held, leads⟩ := second.reached n later
        exact ⟨op, List.mem_append_right _ held, leads⟩
    | inr earlier =>
        obtain ⟨op, held, leads⟩ := first.reached n earlier
        exact ⟨op, List.mem_append_left _ held, leads⟩

omit [DecidableEq N] in
/-- The visit of a node that was seen does nothing. -/
theorem Visited.known {map : UsesMap N} {log : Log N} (represents : Represents map log) {n : N}
    (known : n ∈ map.seen) : Visited g exclude [n] [] map map log log [] where
  represents := represents
  log := by simp
  seen := rfl
  nodup := List.nodup_nil
  unseen _ member := nomatch member
  met op member := by
    rw [List.mem_singleton.mp member]
    exact known
  closed _ member := nomatch member
  reached _ member := nomatch member

omit [DecidableEq N] in
/-- The visit of the operands of a node is the visit of the node. -/
theorem Visited.node {map map' : UsesMap N} {log log' : Log N} {fresh : List N} {n : N}
    (unseen : n ∉ map.seen)
    (visited : Visited g exclude ((uses g exclude n).map Prod.snd) (uses g exclude n)
      { map with seen := n :: map.seen } map' log log' fresh) :
    Visited g exclude [n] [] map map' log log' (fresh ++ [n]) where
  represents := visited.represents
  log := by
    refine visited.log.trans (List.Perm.append_left log ?_)
    rw [List.nil_append, List.flatMap_append, List.flatMap_singleton]
    exact List.perm_append_comm
  seen := by rw [visited.seen, List.append_assoc, List.singleton_append]
  nodup := by
    refine List.nodup_append.mpr ⟨visited.nodup, List.nodup_singleton n, ?_⟩
    rintro m member k here rfl
    rw [List.mem_singleton.mp here] at member
    exact visited.unseen n member List.mem_cons_self
  unseen m member := by
    cases List.mem_append.mp member with
    | inl later => exact fun before => visited.unseen m later (List.mem_cons_of_mem n before)
    | inr here =>
        rw [List.mem_singleton.mp here]
        exact unseen
  met op member := by
    rw [List.mem_singleton.mp member, visited.seen]
    exact List.mem_append_right _ List.mem_cons_self
  closed m member entry held := by
    cases List.mem_append.mp member with
    | inl later => exact visited.closed m later entry held
    | inr here =>
        rw [List.mem_singleton.mp here] at held
        exact visited.met entry.2 (List.mem_map.mpr ⟨entry, held, rfl⟩)
  reached m member := by
    refine ⟨n, List.mem_singleton.mpr rfl, ?_⟩
    cases List.mem_append.mp member with
    | inl later =>
        obtain ⟨op, held, leads⟩ := visited.reached m later
        obtain ⟨⟨use, op'⟩, shown, rfl⟩ := List.mem_map.mp held
        exact leads.head ⟨use, mem_uses_iff.mp shown⟩
    | inr here =>
        rw [List.mem_singleton.mp here]
        exact .refl

/-- What is left to see bounds the depth of the search. -/
def Deep (g : NodeGraph N) (fuel : Nat) (map : UsesMap N) : Prop :=
  Search.left g.nodes map.seen < fuel

theorem Deep.visited {fuel : Nat} {ops : List N} {shown : Log N} {map map' : UsesMap N}
    {log log' : Log N} {fresh : List N} (deep : Deep g fuel map)
    (visited : Visited g exclude ops shown map map' log log' fresh) : Deep g fuel map' := by
  refine Nat.lt_of_le_of_lt (Search.left_le ?_) deep
  rw [visited.seen]
  exact List.subset_append_right fresh map.seen

/-- A loop visits what each of its steps visits. -/
theorem forM_visits {α : Type} (step : α → M N PUnit) (op : α → N) (shown : α → Log N) {fuel : Nat}
    (items : List α)
    (each : ∀ item ∈ items, ∀ map log, Represents map log → Deep g fuel map →
      ∃ map' log' fresh, (step item).run map = .ok ((), map') ∧
        Visited g exclude [op item] (shown item) map map' log log' fresh) :
    ∀ map log, Represents map log → Deep g fuel map →
      ∃ map' log' fresh, (forM items step).run map = .ok ((), map') ∧
        Visited g exclude (items.map op) (items.flatMap shown) map map' log log' fresh := by
  induction items with
  | nil => exact fun map log represents _ => ⟨map, log, [], rfl, .refl represents⟩
  | cons item rest ih =>
      intro map log represents deep
      obtain ⟨map₂, log₂, fresh, ran, visited⟩ := each item List.mem_cons_self map log represents deep
      obtain ⟨map₃, log₃, fresh', ran', visited'⟩ :=
        ih (fun item' held => each item' (List.mem_cons_of_mem item held)) map₂ log₂
          visited.represents (deep.visited visited)
      refine ⟨map₃, log₃, fresh' ++ fresh, ?_, visited.trans visited'⟩
      rw [List.forM_cons, run_bind_of_ok ran]
      exact ran'

/-- An operand is a use, and is visited. -/
theorem visitUse_visits {fuel : Nat} {map : UsesMap N} {log : Log N} {entry : Use N × N} {n : N}
    (user : entry.1.user = n) (represents : Represents map log) (deep : Deep g fuel map)
    (visit : ∀ map log, Represents map log → Deep g fuel map →
      ∃ map' log' fresh, (usesVisitNode g exclude fuel entry.2).run map = .ok ((), map') ∧
        Visited g exclude [entry.2] [] map map' log log' fresh) :
    ∃ map' log' fresh,
      (visitUse (fun opClass opName op i => do
          appendUse ⟨n, opClass, opName, i⟩ op
          usesVisitNode g exclude fuel op) entry).run map = .ok ((), map') ∧
        Visited g exclude [entry.2] [entry] map map' log log' fresh := by
  cases entry with
  | mk use op =>
      cases user
      obtain ⟨map₂, appended, represents₂, seen⟩ := represents.append use op
      obtain ⟨map₃, log₃, fresh, ran, visited⟩ := visit map₂ _ represents₂ (by
        rw [Deep, seen]
        exact deep)
      refine ⟨map₃, log₃, fresh, ?_, ?_⟩
      · rw [visitUse, run_bind_of_ok appended]
        exact ran
      · exact {
          represents := visited.represents
          log := by simpa using visited.log
          seen := by rw [visited.seen, seen]
          nodup := visited.nodup
          unseen := by
            rw [← seen]
            exact visited.unseen
          met := visited.met
          closed := visited.closed
          reached := visited.reached }

/-- With enough depth, the visit of a node succeeds; by induction on the depth. -/
theorem usesVisitNode_visits (fuel : Nat) : ∀ n ∈ g.nodes, ∀ map log, Represents map log →
    Deep g fuel map → ∃ map' log' fresh,
      (usesVisitNode g exclude fuel n).run map = .ok ((), map') ∧
        Visited g exclude [n] [] map map' log log' fresh := by
  induction fuel with
  | zero => exact fun n _ map log _ deep => absurd deep (Nat.not_lt_zero _)
  | succ fuel ih =>
      intro n inside map log represents deep
      rw [usesVisitNode, run_bind_of_ok (run_get map)]
      by_cases known : n ∈ map.seen
      · rw [if_pos known]
        exact ⟨map, log, [], rfl, .known represents known⟩
      · rw [if_neg known, run_bind_of_ok (run_modify _ map), shdVisitNodeOperands_eq]
        have operands := forM_visits
          (visitUse fun opClass opName op i => do
            appendUse ⟨n, opClass, opName, i⟩ op
            usesVisitNode g exclude fuel op)
          Prod.snd (fun entry => [entry]) (uses g exclude n)
          (fun entry shown map log represents deep => by
            obtain ⟨user, field, held, -, -, -, -, found⟩ := mem_uses_iff.mp shown
            have within : entry.2 ∈ g.nodes :=
              g.closed n inside field (user ▸ held) _ _ found
            exact visitUse_visits user represents deep (ih entry.2 within))
          { map with seen := n :: map.seen } log
          ⟨represents.length, represents.cell, represents.first⟩
          (Nat.lt_of_lt_of_le (Search.left_lt inside known) (Nat.lt_succ_iff.mp deep))
        obtain ⟨map', log', fresh, ran, visited⟩ := operands
        rw [List.flatMap_singleton'] at visited
        exact ⟨map', log', fresh ++ [n], ran, visited.node known⟩

omit [DecidableEq N] in
/-- What is seen from the roots on is what they reach. -/
theorem Visited.seen_iff {ops : List N} {map map' : UsesMap N} {log log' : Log N} {fresh : List N}
    (visited : Visited g exclude ops [] map map' log log' fresh) (empty : map.seen = []) {n : N} :
    n ∈ fresh ↔ ∃ op ∈ ops, Reaches g exclude op n := by
  have seen : map'.seen = fresh := by rw [visited.seen, empty, List.append_nil]
  constructor
  · exact visited.reached n
  · rintro ⟨op, held, leads⟩
    induction leads with
    | refl =>
        rw [← seen]
        exact visited.met op held
    | tail _ step ih =>
        obtain ⟨use, user, occurs⟩ := step
        rw [← seen]
        exact visited.closed _ ih (use, _) (mem_uses_iff.mpr ⟨user, occurs⟩)

/-- The list of a node holds each of its uses by what is reached, once. -/
structure HoldsUses (g : NodeGraph N) (exclude : NodeClass) (roots : List N) (n : N)
    (list : List (Use N)) : Prop where
  once : list.Nodup
  exact : ∀ use, use ∈ list ↔
    (∃ root ∈ roots, Reaches g exclude root use.user) ∧ Occurs g exclude use n

theorem usesFrom_zero {log : Log N} {n : N} :
    usesFrom log n 0 = (log.filter fun entry => entry.2 = n).map Prod.fst := rfl

theorem mem_usesFrom_zero {log : Log N} {n : N} {use : Use N} :
    use ∈ usesFrom log n 0 ↔ (use, n) ∈ log := by
  simp [usesFrom_zero]

omit [DecidableEq N] in
theorem nodup_flatMap_uses {fresh : List N} (nodup : fresh.Nodup) :
    ((fresh.flatMap (uses g exclude)).map Prod.fst).Nodup := by
  rw [List.map_flatMap, List.nodup_flatMap]
  refine ⟨fun n _ => uses_nodup n, nodup.imp fun apart use first second => apart ?_⟩
  obtain ⟨⟨_, op⟩, shown, rfl⟩ := List.mem_map.mp first
  obtain ⟨⟨_, op'⟩, shown', rfl⟩ := List.mem_map.mp second
  exact (mem_uses_iff.mp shown).1.symm.trans (mem_uses_iff.mp shown').1

theorem Visited.holdsUses {ops : List N} {map' : UsesMap N} {log' : Log N} {fresh : List N}
    (visited : Visited g exclude ops [] .empty map' [] log' fresh) (n : N) :
    HoldsUses g exclude ops n (usesFrom log' n 0) := by
  have same : log'.Perm (fresh.flatMap (uses g exclude)) := by simpa using visited.log
  refine ⟨?_, fun use => ?_⟩
  · have once : (log'.map Prod.fst).Nodup :=
      (same.map Prod.fst).nodup_iff.mpr (nodup_flatMap_uses visited.nodup)
    exact once.sublist (List.Sublist.map Prod.fst List.filter_sublist)
  · rw [mem_usesFrom_zero, same.mem_iff, List.mem_flatMap, ← visited.seen_iff rfl]
    constructor
    · rintro ⟨user, seen, shown⟩
      obtain ⟨rfl, occurs⟩ := mem_uses_iff.mp shown
      exact ⟨seen, occurs⟩
    · rintro ⟨seen, occurs⟩
      exact ⟨use.user, seen, mem_uses_iff.mpr ⟨rfl, occurs⟩⟩

omit [DecidableEq N] in
theorem Represents.empty : Represents (.empty : UsesMap N) [] where
  length := rfl
  cell _ _ _ entry := nomatch entry
  first _ := fun _ _ found => nomatch found

theorem Represents.appendAll (entries : List (Use N × N)) : ∀ {map : UsesMap N} {log : Log N},
    Represents map log → ∃ map', (forM entries fun entry => appendUse entry.1 entry.2).run map =
      .ok ((), map') ∧ Represents map' (log ++ entries) := by
  induction entries with
  | nil =>
      intro map log represents
      rw [List.append_nil]
      exact ⟨map, rfl, represents⟩
  | cons entry rest ih =>
      intro map log represents
      obtain ⟨map₂, ran, represents₂, -⟩ := represents.append entry.1 entry.2
      obtain ⟨map₃, ran', represents₃⟩ := ih represents₂
      refine ⟨map₃, ?_, ?_⟩
      · rw [List.forM_cons, run_bind_of_ok ran]
        exact ran'
      · rwa [List.append_assoc, List.singleton_append] at represents₃

/-- With enough depth, the map is made, and the list of each node holds its uses. -/
theorem createUsesMap_holds (g : NodeGraph N) (exclude : NodeClass) (root : Option N)
    (declarations : List N) (inside : ∀ n ∈ root.toList ++ declarations, n ∈ g.nodes) {fuel : Nat}
    (enough : g.nodes.length < fuel) : ∃ map,
      (createUsesMap g exclude fuel root declarations).run .empty = .ok ((), map) ∧
      ∀ n, ∃ list, Lists map.cells (map.firstUse n) list ∧
        HoldsUses g exclude (root.toList ++ declarations) n list := by
  have deep : Deep g fuel .empty := Nat.lt_of_le_of_lt List.countP_le_length enough
  have visits := forM_visits (usesVisitNode g exclude fuel) id (fun _ => [])
    (root.toList ++ declarations)
    (fun n held map log represents deep =>
      usesVisitNode_visits fuel n (inside n held) map log represents deep)
    .empty [] .empty deep
  obtain ⟨map, log, fresh, ran, visited⟩ := visits
  rw [List.map_id, List.flatMap_eq_nil_iff.mpr fun _ _ => rfl] at visited
  refine ⟨map, ?_, fun n => ⟨usesFrom log n 0, ?_, visited.holdsUses n⟩⟩
  · rw [List.forM_append] at ran
    exact ran
  · exact visited.represents.lists log.length (Nat.sub_le _ _) (visited.represents.first n)

/-- The map of the uses from a root and from declarations on: every visit comes to its end, and the
list of each node holds exactly its uses. Whatever is appended, in any order, no list loses a use. -/
theorem createUsesMap_exact (g : NodeGraph N) (exclude : NodeClass) (root : Option N)
    (declarations : List N) (inside : ∀ n ∈ root.toList ++ declarations, n ∈ g.nodes) :
    (∀ fuel, g.nodes.length < fuel → ∃ map,
      (createUsesMap g exclude fuel root declarations).run .empty = .ok ((), map) ∧
      ∀ n, ∃ list, Lists map.cells (map.firstUse n) list ∧
        HoldsUses g exclude (root.toList ++ declarations) n list) ∧
    (∀ entries : List (Use N × N), ∃ map,
      (forM entries fun entry => appendUse entry.1 entry.2).run .empty = .ok ((), map) ∧
      ∀ n, Lists map.cells (map.firstUse n)
        ((entries.filter fun entry => entry.2 = n).map Prod.fst)) := by
  constructor
  · exact fun fuel enough => createUsesMap_holds g exclude root declarations inside enough
  · intro entries
    obtain ⟨map, ran, represents⟩ := Represents.empty.appendAll entries
    exact ⟨map, ran, fun n =>
      represents.lists entries.length (Nat.sub_le _ _) (represents.first n)⟩

/-- Two blocks that jump to each other, and a value that both use. -/
def twoBlocks : NodeGraph (Fin 3) where
  payload n := match n with
    | 0 => [⟨"target", some 1, false, .op (some 1)⟩, ⟨"args", some 2, false, .ops [some 2, some 2]⟩]
    | 1 => [⟨"target", some 1, false, .op (some 0)⟩, ⟨"args", some 2, false, .ops [some 2]⟩]
    | 2 => []
  nodes := [0, 1, 2]
  names := by decide
  closed n _ field _ index op _ := by
    match op with
    | 0 => exact List.mem_cons_self
    | 1 => exact List.mem_cons_of_mem 0 List.mem_cons_self
    | 2 => exact List.mem_cons_of_mem 0 (List.mem_cons_of_mem 1 List.mem_cons_self)

theorem createUsesMap_twoBlocks : ∃ map,
    (createUsesMap twoBlocks 0 4 (some 0) []).run .empty = .ok ((), map) ∧
    ∀ n, ∃ list, Lists map.cells (map.firstUse n) list ∧ HoldsUses twoBlocks 0 [0] n list :=
  (createUsesMap_exact twoBlocks 0 (some 0) [] (by decide)).1 4 (by decide)

end Shady.Uses
