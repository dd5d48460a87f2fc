import Shady.Analysis.CfgWellFormed

/-!
# Reverse post-order numbering

`post_order_visit` numbers the nodes downwards from the size of the graph, each
one after all that it leads to. On every well-formed graph the visit ends, it
numbers exactly the nodes that the entry reaches, and every numbered node but
the entry has a predecessor with a smaller number.
-/

set_option autoImplicit false

namespace Shady
open Dominance Fallible

/-- The values that `rpo_index` takes: `SIZE_MAX` before a node is visited, -2 while
it is on the stack, and then its number. -/
inductive RpoIndex
  | unvisited
  | visiting
  | number (i : Nat)
  deriving DecidableEq, Repr

/-- The `size_t` that the index is stored as. -/
def RpoIndex.value : RpoIndex → Nat
  | unvisited => 2 ^ 64 - 1
  | visiting => 2 ^ 64 - 2
  | number i => i

structure RpoState where
  rpoIndex : CFNodeId → RpoIndex
  /-- The part of the array `rpo` filled so far, which is its upper end. -/
  rpo : List CFNodeId

def RpoState.initial : RpoState := ⟨fun _ => .unvisited, []⟩

def RpoState.mark (state : RpoState) (n : CFNodeId) (index : RpoIndex) : RpoState :=
  { state with rpoIndex := fun v => if v = n then index else state.rpoIndex v }

/-- The end of a visit of `n`: it gets its number and its place in the array. -/
def RpoState.finish (state : RpoState) (n : CFNodeId) (index : Nat) : RpoState :=
  { state.mark n (.number index) with rpo := n :: state.rpo }

theorem RpoState.finish_self (state : RpoState) (n : CFNodeId) (index : Nat) :
    (state.finish n index).rpoIndex n = .number index := by
  simp [finish, mark]

theorem RpoState.finish_other (state : RpoState) {n v : CFNodeId} (index : Nat)
    (different : v ≠ n) : (state.finish n index).rpoIndex v = state.rpoIndex v := by
  simp [finish, mark, different]

/-- The destinations in the order of the two phases, those of tail edges last. -/
def CFG.visitOrder (cfg : CFG) (n : CFNodeId) : List CFNodeId :=
  ((cfg.succEdges n).filter (·.type ≠ .structuredTailEdge) ++
    (cfg.succEdges n).filter (·.type = .structuredTailEdge)).map (·.dst)

/-- The body of the inner loop of `post_order_visit`. -/
def visitSuccessor
    (visit : CFNodeId → RpoState × Nat → Except CfgError (RpoState × Nat))
    (current : RpoState × Nat) (dst : CFNodeId) : Except CfgError (RpoState × Nat) :=
  if current.1.rpoIndex dst = .unvisited then visit dst current else .ok current

def postOrderVisit (cfg : CFG) :
    Nat → CFNodeId → RpoState × Nat → Except CfgError (RpoState × Nat)
  | 0, _, _ => .error .outOfFuel
  | fuel + 1, n, (state, i) => do
      let (state, i) ← (cfg.visitOrder n).foldlM (visitSuccessor (postOrderVisit cfg fuel))
        (state.mark n .visiting, i)
      match i with
      | 0 => .error .outOfBounds
      | index + 1 => return (state.finish n index, index)

/-- `shd_cfg_compute_rpo`. -/
def computeRpo (cfg : CFG) : Except CfgError RpoState := do
  let (state, index) ← postOrderVisit cfg cfg.size cfg.entry (.initial, cfg.size)
  if index = 0 then return state else .error (.assertion "index == 0")

theorem mem_visitOrder (cfg : CFG) (n v : CFNodeId) :
    v ∈ cfg.visitOrder n ↔ cfg.Edge n v := by
  simp only [CFG.visitOrder, CFG.Edge, List.mem_map, List.mem_append, List.mem_filter]
  constructor
  · rintro ⟨e, ⟨member, -⟩ | ⟨member, -⟩, dst⟩ <;> exact ⟨e, member, dst⟩
  · rintro ⟨e, member, dst⟩
    by_cases tail : e.type = .structuredTailEdge
    · exact ⟨e, Or.inr ⟨member, by simpa using tail⟩, dst⟩
    · exact ⟨e, Or.inl ⟨member, by simpa using tail⟩, dst⟩

/-! ## States of the visit -/

/-- The numbers handed out so far are `i` and above, in the order of the array. -/
structure RpoState.Valid (cfg : CFG) (state : RpoState) (i : Nat) : Prop where
  indexed : ∀ v k, state.rpoIndex v = .number k ↔ i ≤ k ∧ state.rpo[k - i]? = some v
  length : i + state.rpo.length = cfg.size
  nodup : state.rpo.Nodup
  contents : ∀ v ∈ state.rpo, v ∈ cfg.contents

theorem RpoState.initial_valid (cfg : CFG) : RpoState.initial.Valid cfg cfg.size where
  indexed := by simp [initial]
  length := by simp [initial]
  nodup := List.nodup_nil
  contents := by simp [initial]

theorem RpoState.Valid.mem_iff {cfg : CFG} {state : RpoState} {i : Nat}
    (valid : state.Valid cfg i) (v : CFNodeId) :
    v ∈ state.rpo ↔ ∃ k, state.rpoIndex v = .number k := by
  constructor
  · intro member
    obtain ⟨k, found⟩ := List.mem_iff_getElem?.mp member
    exact ⟨i + k, (valid.indexed v (i + k)).mpr ⟨by omega, by simpa using found⟩⟩
  · rintro ⟨k, numbered⟩
    exact List.mem_of_getElem? ((valid.indexed v k).mp numbered).2

theorem RpoState.Valid.index_pos {cfg : CFG} {state : RpoState} {i : Nat}
    (valid : state.Valid cfg i) {n : CFNodeId} (inside : n ∈ cfg.contents)
    (missing : n ∉ state.rpo) : 0 < i := by
  have sub : (n :: state.rpo).Subperm cfg.contents := by
    apply List.subperm_of_subset (List.nodup_cons.mpr ⟨missing, valid.nodup⟩)
    intro v member
    rcases List.mem_cons.mp member with rfl | old
    · exact inside
    · exact valid.contents v old
  have bound := sub.length_le
  have total := valid.length
  simp only [List.length_cons] at bound
  unfold CFG.size at total
  omega

theorem RpoState.Valid.visiting {cfg : CFG} {state : RpoState} {i : Nat}
    (valid : state.Valid cfg i) {n : CFNodeId} (unvisited : state.rpoIndex n = .unvisited) :
    (state.mark n .visiting).Valid cfg i where
  indexed := by
    intro v k
    simp only [mark]
    split_ifs with same
    · subst same
      have := valid.indexed v k
      simpa [unvisited] using this
    · exact valid.indexed v k
  length := valid.length
  nodup := valid.nodup
  contents := valid.contents

theorem RpoState.Valid.numbered {cfg : CFG} {state : RpoState} {index : Nat}
    (valid : state.Valid cfg (index + 1)) {n : CFNodeId} (inside : n ∈ cfg.contents)
    (missing : n ∉ state.rpo) :
    (state.finish n index).Valid cfg index where
  indexed := by
    intro v k
    simp only [finish, mark]
    rcases Nat.lt_trichotomy k index with below | rfl | above
    · have old := valid.indexed v k
      split_ifs with same
      · simp; omega
      · constructor
        · intro numbered
          have := (old.mp numbered).1
          omega
        · rintro ⟨low, -⟩
          omega
    · split_ifs with same
      · simp [same]
      · have old := valid.indexed v k
        have impossible : ¬ k + 1 ≤ k := by omega
        simp only [impossible, false_and, iff_false] at old
        simp only [old, false_iff]
        rintro ⟨-, found⟩
        simp only [Nat.sub_self, List.getElem?_cons_zero, Option.some.injEq] at found
        exact same found.symm
    · have shift : k - index = (k - (index + 1)) + 1 := by omega
      rw [shift, List.getElem?_cons_succ]
      split_ifs with same
      · subst same
        constructor
        · intro numbered
          simp only [RpoIndex.number.injEq] at numbered
          omega
        · rintro ⟨-, found⟩
          exact absurd (List.mem_of_getElem? found) missing
      · rw [valid.indexed v k]
        constructor
        · rintro ⟨-, found⟩
          exact ⟨by omega, found⟩
        · rintro ⟨-, found⟩
          exact ⟨by omega, found⟩
  length := by
    have := valid.length
    simp only [finish, List.length_cons]
    omega
  nodup := List.nodup_cons.mpr ⟨missing, valid.nodup⟩
  contents := by
    intro v member
    rcases List.mem_cons.mp member with rfl | old
    · exact inside
    · exact valid.contents v old

/-- The nodes that no visit has reached yet. -/
def RpoState.remaining (cfg : CFG) (state : RpoState) : Nat :=
  cfg.contents.countP fun v => state.rpoIndex v = .unvisited

theorem RpoState.remaining_le (cfg : CFG) {before after : RpoState}
    (mono : ∀ v, after.rpoIndex v = .unvisited → before.rpoIndex v = .unvisited) :
    after.remaining cfg ≤ before.remaining cfg := by
  apply List.countP_mono_left
  intro v _ unvisited
  simpa using mono v (by simpa using unvisited)

theorem RpoState.remaining_mark (cfg : CFG) {state : RpoState} {n : CFNodeId}
    (inside : n ∈ cfg.contents) (unvisited : state.rpoIndex n = .unvisited) :
    (state.mark n .visiting).remaining cfg < state.remaining cfg := by
  apply countP_lt ?_ inside
  · simp [mark]
  · simpa using unvisited
  · intro v _ still
    by_cases same : v = n
    · simp [mark, same] at still
    · simpa [mark, same] using still

/-- What a visit that starts at nodes of `start` does: it numbers the nodes of `new`. -/
structure Explores (cfg : CFG) (start : CFNodeId → Prop) (before after : RpoState)
    (new : List CFNodeId) : Prop where
  rpo : after.rpo = new ++ before.rpo
  frame : ∀ v, v ∉ new → after.rpoIndex v = before.rpoIndex v
  fresh : ∀ v ∈ new, before.rpoIndex v = .unvisited
  closed : ∀ v ∈ new, ∀ w, cfg.Edge v w → after.rpoIndex w ≠ .unvisited
  parent : ∀ v ∈ new, start v ∨ ∃ p ∈ new, cfg.Edge p v ∧
    ∃ a b, after.rpoIndex p = .number a ∧ after.rpoIndex v = .number b ∧ a < b
  reached : ∀ v ∈ new, ∃ s, start s ∧ Relation.ReflTransGen cfg.Edge s v

section Visit
variable {cfg : CFG}

theorem Explores.refl (start : CFNodeId → Prop) (state : RpoState) :
    Explores cfg start state state [] where
  rpo := rfl
  frame := fun _ _ => rfl
  fresh := by simp
  closed := by simp
  parent := by simp
  reached := by simp

theorem Explores.mono {start : CFNodeId → Prop} {before after : RpoState}
    {new : List CFNodeId} {i : Nat} (valid : after.Valid cfg i)
    (explores : Explores cfg start before after new) (v : CFNodeId)
    (unvisited : after.rpoIndex v = .unvisited) : before.rpoIndex v = .unvisited := by
  have missing : v ∉ new := by
    intro member
    obtain ⟨k, numbered⟩ := (valid.mem_iff v).mp
      (explores.rpo ▸ List.mem_append_left _ member)
    simp [unvisited] at numbered
  exact (explores.frame v missing) ▸ unvisited

theorem Explores.weaken {start wider : CFNodeId → Prop} {before after : RpoState}
    {new : List CFNodeId} (explores : Explores cfg start before after new)
    (weaker : ∀ v, start v → wider v) : Explores cfg wider before after new where
  rpo := explores.rpo
  frame := explores.frame
  fresh := explores.fresh
  closed := explores.closed
  parent := fun v member => (explores.parent v member).imp (weaker v) id
  reached := fun v member => by
    obtain ⟨s, begins, path⟩ := explores.reached v member
    exact ⟨s, weaker s begins, path⟩

theorem Explores.trans {start : CFNodeId → Prop} {first second third : RpoState}
    {earlier later : List CFNodeId} {j : Nat} (validThird : third.Valid cfg j)
    (one : Explores cfg start first second earlier)
    (two : Explores cfg start second third later) {i : Nat} (validSecond : second.Valid cfg i) :
    Explores cfg start first third (later ++ earlier) := by
  have kept : ∀ v ∈ earlier, third.rpoIndex v = second.rpoIndex v := by
    intro v member
    apply two.frame
    intro again
    obtain ⟨k, numbered⟩ := (validSecond.mem_iff v).mp
      (one.rpo ▸ List.mem_append_left _ member)
    simp [two.fresh v again] at numbered
  exact
    { rpo := by rw [two.rpo, one.rpo, List.append_assoc]
      frame := by
        intro v missing
        simp only [List.mem_append, not_or] at missing
        rw [two.frame v missing.1, one.frame v missing.2]
      fresh := by
        intro v member
        rcases List.mem_append.mp member with new | old
        · exact one.mono validSecond v (two.fresh v new)
        · exact one.fresh v old
      closed := by
        intro v member w taken unvisited
        rcases List.mem_append.mp member with new | old
        · exact two.closed v new w taken unvisited
        · exact one.closed v old w taken (two.mono validThird w unvisited)
      parent := by
        intro v member
        rcases List.mem_append.mp member with new | old
        · rcases two.parent v new with begins | ⟨p, known, rest⟩
          · exact Or.inl begins
          · exact Or.inr ⟨p, List.mem_append_left _ known, rest⟩
        · rcases one.parent v old with begins | ⟨p, known, taken, a, b, atP, atV, less⟩
          · exact Or.inl begins
          · exact Or.inr ⟨p, List.mem_append_right _ known, taken, a, b,
              (kept p known).trans atP, (kept v old).trans atV, less⟩
      reached := by
        intro v member
        rcases List.mem_append.mp member with new | old
        · exact two.reached v new
        · exact one.reached v old }

/-- What a call of `post_order_visit` on an unvisited node guarantees. -/
def VisitSpec (cfg : CFG) (fuel : Nat)
    (visit : CFNodeId → RpoState × Nat → Except CfgError (RpoState × Nat)) : Prop :=
  ∀ n state i, state.Valid cfg i → n ∈ cfg.contents → state.rpoIndex n = .unvisited →
    state.remaining cfg ≤ fuel →
    ∃ after j new, visit n (state, i) = .ok (after, j) ∧ after.Valid cfg j ∧
      Explores cfg (· = n) state after (n :: new)

/-- The loop over the successors. -/
theorem visitSuccessors_spec {fuel : Nat}
    {visit : CFNodeId → RpoState × Nat → Except CfgError (RpoState × Nat)}
    (spec : VisitSpec cfg fuel visit) {n : CFNodeId} (dsts : List CFNodeId) :
    ∀ state i, (∀ d ∈ dsts, d ∈ cfg.contents ∧ cfg.Edge n d) → state.Valid cfg i →
      state.remaining cfg ≤ fuel →
      ∃ after j new, dsts.foldlM (visitSuccessor visit) (state, i) = .ok (after, j) ∧
        after.Valid cfg j ∧ Explores cfg (cfg.Edge n) state after new ∧
        ∀ d ∈ dsts, after.rpoIndex d ≠ .unvisited := by
  induction dsts with
  | nil =>
      intro state i _ valid _
      exact ⟨state, i, [], rfl, valid, Explores.refl _ state, by simp⟩
  | cons d dsts ih =>
      intro state i successors valid enough
      obtain ⟨inside, taken⟩ := successors d List.mem_cons_self
      -- one successor, visited now or met before
      obtain ⟨middle, j, new, ran, middleValid, explores, met⟩ :
          ∃ middle j new, visitSuccessor visit (state, i) d = .ok (middle, j) ∧
            middle.Valid cfg j ∧ Explores cfg (cfg.Edge n) state middle new ∧
            middle.rpoIndex d ≠ .unvisited := by
        unfold visitSuccessor
        split_ifs with unvisited
        · obtain ⟨middle, j, new, ran, middleValid, explores⟩ :=
            spec d state i valid inside unvisited enough
          refine ⟨middle, j, d :: new, ran, middleValid,
            explores.weaken (by rintro v rfl; exact taken), ?_⟩
          intro again
          obtain ⟨k, numbered⟩ := (middleValid.mem_iff d).mp
            (explores.rpo ▸ List.mem_append_left _ List.mem_cons_self)
          simp [again] at numbered
        · exact ⟨state, i, [], rfl, valid, Explores.refl _ state, unvisited⟩
      have fewer := RpoState.remaining_le cfg (explores.mono middleValid)
      obtain ⟨after, k, newer, ranRest, afterValid, exploresRest, metRest⟩ :=
        ih middle j (fun w member => successors w (List.mem_cons_of_mem _ member)) middleValid
          (fewer.trans enough)
      refine ⟨after, k, newer ++ new, ?_, afterValid,
        Explores.trans afterValid explores exploresRest middleValid, ?_⟩
      · rw [List.foldlM_cons, ran]
        exact ranRest
      · intro w member
        rcases List.mem_cons.mp member with rfl | later
        · exact fun unvisited => met (exploresRest.mono afterValid _ unvisited)
        · exact metRest w later

theorem postOrderVisit_spec (wellFormed : cfg.WellFormed) :
    ∀ fuel, VisitSpec cfg fuel (postOrderVisit cfg fuel) := by
  intro fuel
  induction fuel with
  | zero =>
      intro n state i _ inside unvisited enough
      have := RpoState.remaining_mark cfg inside unvisited
      omega
  | succ fuel ih =>
      intro n state i valid inside unvisited enough
      have counted := RpoState.remaining_mark cfg inside unvisited
      have successors : ∀ d ∈ cfg.visitOrder n, d ∈ cfg.contents ∧ cfg.Edge n d := by
        intro d member
        have taken := (mem_visitOrder cfg n d).mp member
        exact ⟨(wellFormed.edge_mem taken).2, taken⟩
      obtain ⟨middle, j, new, ran, middleValid, explores, met⟩ :=
        visitSuccessors_spec ih (cfg.visitOrder n) (state.mark n .visiting) i successors
          (valid.visiting unvisited) (by omega)
      have visiting : (state.mark n .visiting).rpoIndex n = .visiting := by
        simp [RpoState.mark]
      have notNew : n ∉ new := fun member => by simp [explores.fresh n member] at visiting
      have stillVisiting : middle.rpoIndex n = .visiting :=
        (explores.frame n notNew).trans visiting
      have missing : n ∉ middle.rpo := by
        intro member
        obtain ⟨k, numbered⟩ := (middleValid.mem_iff n).mp member
        simp [stillVisiting] at numbered
      obtain ⟨index, rfl⟩ : ∃ index, j = index + 1 :=
        ⟨j - 1, by have := middleValid.index_pos inside missing; omega⟩
      have afterValid := middleValid.numbered inside missing
      refine ⟨_, index, new, ?_, afterValid, ?_⟩
      · unfold postOrderVisit
        rw [bind_eq_ok]
        exact ⟨(middle, index + 1), ran, rfl⟩
      · have other : ∀ v, v ≠ n → (middle.finish n index).rpoIndex v = middle.rpoIndex v :=
          fun v different => middle.finish_other index different
        have self : (middle.finish n index).rpoIndex n = .number index :=
          middle.finish_self n index
        exact
          { rpo := by simp [explores.rpo, RpoState.finish, RpoState.mark]
            frame := by
              intro v absent
              simp only [List.mem_cons, not_or] at absent
              rw [other v absent.1, explores.frame v absent.2]
              simp [RpoState.mark, absent.1]
            fresh := by
              intro v member
              rcases List.mem_cons.mp member with rfl | inner
              · exact unvisited
              · have different : v ≠ n := fun same => notNew (same ▸ inner)
                simpa [RpoState.mark, different] using explores.fresh v inner
            closed := by
              intro v member w taken again
              by_cases same : w = n
              · subst same
                simp [self] at again
              · rw [other w same] at again
                rcases List.mem_cons.mp member with rfl | inner
                · exact met w ((mem_visitOrder cfg v w).mpr taken) again
                · exact explores.closed v inner w taken again
            parent := by
              intro v member
              rcases List.mem_cons.mp member with rfl | inner
              · exact Or.inl rfl
              · have different : v ≠ n := fun same => notNew (same ▸ inner)
                refine Or.inr ?_
                rcases explores.parent v inner with child | ⟨p, known, taken, a, b, atP, atV, less⟩
                · obtain ⟨b, numbered⟩ := (middleValid.mem_iff v).mp
                    (explores.rpo ▸ List.mem_append_left _ inner)
                  refine ⟨n, List.mem_cons_self, child, index, b, self,
                    (other v different).trans numbered, ?_⟩
                  exact ((middleValid.indexed v b).mp numbered).1
                · have differentP : p ≠ n := fun same => notNew (same ▸ known)
                  exact ⟨p, List.mem_cons_of_mem _ known, taken, a, b,
                    (other p differentP).trans atP, (other v different).trans atV, less⟩
            reached := by
              intro v member
              rcases List.mem_cons.mp member with rfl | inner
              · exact ⟨v, rfl, Relation.ReflTransGen.refl⟩
              · obtain ⟨s, taken, path⟩ := explores.reached v inner
                exact ⟨n, rfl, Relation.ReflTransGen.head taken path⟩ }

end Visit

/-! ## The numbering -/

/-- A numbering of all nodes, the entry first, in which every other node has an
earlier predecessor. -/
structure RpoState.Numbers (cfg : CFG) (state : RpoState) : Prop where
  indexed : ∀ v k, state.rpoIndex v = .number k ↔ state.rpo[k]? = some v
  listed : ∀ v, v ∈ state.rpo ↔ v ∈ cfg.contents
  nodup : state.rpo.Nodup
  entry : state.rpoIndex cfg.entry = .number 0
  parent : ∀ v ∈ cfg.contents, v ≠ cfg.entry → ∃ p, cfg.Edge p v ∧
    (state.rpoIndex p).value < (state.rpoIndex v).value

theorem postOrderVisit_entry {cfg : CFG} (wellFormed : cfg.WellFormed) :
    ∃ state index, postOrderVisit cfg cfg.size cfg.entry (.initial, cfg.size) = .ok (state, index) ∧
      state.Valid cfg index ∧ state.rpoIndex cfg.entry = .number index ∧
      (∀ v, v ∈ state.rpo ↔ Reachable cfg.Edge cfg.entry v) ∧
      ∀ v ∈ state.rpo, v ≠ cfg.entry → ∃ p, cfg.Edge p v ∧
        (state.rpoIndex p).value < (state.rpoIndex v).value := by
  have enough : RpoState.initial.remaining cfg ≤ cfg.size := List.countP_le_length
  obtain ⟨state, index, new, ran, valid, explores⟩ :=
    postOrderVisit_spec wellFormed cfg.size cfg.entry .initial cfg.size
      (RpoState.initial_valid cfg) wellFormed.entry_mem rfl enough
  have all : state.rpo = cfg.entry :: new := by simpa [RpoState.initial] using explores.rpo
  refine ⟨state, index, ran, valid, ?_, ?_, ?_⟩
  · exact (valid.indexed _ _).mpr ⟨le_refl _, by simp [all]⟩
  · intro v
    rw [reachable_iff_reflTransGen]
    constructor
    · intro member
      obtain ⟨s, rfl, path⟩ := explores.reached v (all ▸ member)
      exact path
    · intro path
      induction path with
      | refl => simp [all]
      | @tail b c _ taken ih =>
          -- the visited nodes are closed under the edges, as none is on the stack any more
          have met := explores.closed b (all ▸ ih) c taken
          by_contra missing
          have untouched := explores.frame c (all ▸ missing)
          exact met untouched
  · intro v member different
    rcases explores.parent v (all ▸ member) with same | ⟨p, -, taken, a, b, atP, atV, less⟩
    · exact absurd same different
    · exact ⟨p, taken, by rw [atP, atV]; exact less⟩

/-- Where every node is reachable, the assertion of `shd_cfg_compute_rpo` holds. -/
theorem computeRpo_numbers {cfg : CFG} (wellFormed : cfg.WellFormed)
    (reachable : ∀ v ∈ cfg.contents, Reachable cfg.Edge cfg.entry v) :
    ∃ state, computeRpo cfg = .ok state ∧ state.Numbers cfg := by
  obtain ⟨state, index, ran, valid, entry, reached, parent⟩ := postOrderVisit_entry wellFormed
  have listed : ∀ v, v ∈ state.rpo ↔ v ∈ cfg.contents := fun v =>
    ⟨valid.contents v, fun member => (reached v).mpr (reachable v member)⟩
  have sameLength : state.rpo.length = cfg.size :=
    ((List.perm_ext_iff_of_nodup valid.nodup wellFormed.nodup).mpr listed).length_eq
  obtain rfl : index = 0 := by
    have := valid.length
    omega
  refine ⟨state, ?_, ?_⟩
  · unfold computeRpo
    rw [bind_eq_ok]
    exact ⟨(state, 0), ran, rfl⟩
  · exact
      { indexed := fun v k => by simpa using valid.indexed v k
        listed := listed
        nodup := valid.nodup
        entry := entry
        parent := fun v member => parent v ((listed v).mpr member) }

/-- Where some node is not reachable, the assertion of `shd_cfg_compute_rpo` fails. -/
theorem computeRpo_fails {cfg : CFG} (wellFormed : cfg.WellFormed) {v : CFNodeId}
    (inside : v ∈ cfg.contents) (unreachable : ¬ Reachable cfg.Edge cfg.entry v) :
    computeRpo cfg = .error (.assertion "index == 0") := by
  obtain ⟨state, index, ran, valid, -, reached, -⟩ := postOrderVisit_entry wellFormed
  have missing : v ∉ state.rpo := fun member => unreachable ((reached v).mp member)
  have positive := valid.index_pos inside missing
  unfold computeRpo
  rw [ran]
  simp only [bind, Except.bind]
  rw [if_neg (by omega)]

theorem RpoState.Numbers.value_injective {cfg : CFG} {state : RpoState}
    (numbers : state.Numbers cfg) {v w : CFNodeId} (left : v ∈ cfg.contents)
    (right : w ∈ cfg.contents)
    (same : (state.rpoIndex v).value = (state.rpoIndex w).value) : v = w := by
  obtain ⟨a, atA⟩ := List.mem_iff_getElem?.mp ((numbers.listed v).mpr left)
  obtain ⟨b, atB⟩ := List.mem_iff_getElem?.mp ((numbers.listed w).mpr right)
  rw [(numbers.indexed v a).mpr atA, (numbers.indexed w b).mpr atB] at same
  obtain rfl : a = b := same
  exact Option.some.inj (atA.symm.trans atB)

end Shady
