import Shady.Analysis.SchedulingExact

/-!
# The visit of a free frontier

What a visit that returns has done: it has seen what operands lead to without leaving the
blocks below its start, and its frontier holds the values outside and what the frontiers of
the blocks outside hold. It returns if the queries on its way do.
-/

set_option autoImplicit false

namespace Shady
open Dominance Fallible

/-! ## Results do not depend on fuel -/

section Fuel
variable {f : FunctionNode} {analysed : AnalysedCFG}

theorem foldlM_same {ε α σ : Type} {step step' : σ → α → Except ε σ} {items : List α}
    (same : ∀ item ∈ items, ∀ s s', step s item = .ok s' → step' s item = .ok s') {s s' : σ}
    (ran : items.foldlM step s = .ok s') : items.foldlM step' s = .ok s' := by
  induction items generalizing s with
  | nil => exact ran
  | cons item items ih =>
      rw [List.foldlM_cons] at ran ⊢
      obtain ⟨next, first, rest⟩ := bind_eq_ok.mp ran
      rw [same item List.mem_cons_self s next first]
      exact ih (fun item member => same item (List.mem_cons_of_mem _ member)) rest

/-- With more fuel, a visit that returns does the same. -/
theorem frontier_succ (fuel : Nat) :
    (∀ start n s s', visitFreeFrontier f analysed start fuel n s = .ok s' →
      visitFreeFrontier f analysed start (fuel + 1) n s = .ok s') ∧
    ∀ b set, freeFrontier f analysed fuel b = .ok set →
      freeFrontier f analysed (fuel + 1) b = .ok set := by
  induction fuel with
  | zero =>
      constructor
      · intro start n s s' ran
        simp [visitFreeFrontier] at ran
      · intro b set ran
        simp [freeFrontier] at ran
  | succ fuel ih =>
      constructor
      · intro start n s s' ran
        rw [visitFreeFrontier] at ran ⊢
        split_ifs at ran ⊢ with known
        · exact ran
        · obtain ⟨place, scheduled, ran⟩ := bind_eq_ok.mp ran
          rw [scheduled]
          cases place with
          | none => exact ran
          | some where_ =>
              obtain ⟨below, answered, ran⟩ := bind_eq_ok.mp ran
              simp only [bind, Except.bind, answered]
              cases below with
              | true => exact foldlM_same (fun o _ s s' step => ih.1 start o s s' step) ran
              | false =>
                  cases n with
                  | block b =>
                      obtain ⟨other, found, ran⟩ := bind_eq_ok.mp ran
                      simp only [ih.2 b other found]
                      exact ran
                  | value n => exact ran
                  | terminator t => exact ran
      · intro b set ran
        rw [freeFrontier] at ran ⊢
        obtain ⟨start, found, ran⟩ := bind_eq_ok.mp ran
        rw [found]
        simp only [bind, Except.bind]
        cases body : (f.get b).bind AbstractionNode.body with
        | none =>
            rw [body] at ran
            exact ran
        | some t =>
            rw [body] at ran
            obtain ⟨state, visited, ran⟩ := bind_eq_ok.mp ran
            simp only [ih.1 _ _ _ _ visited]
            exact ran

theorem freeFrontier_mono {b : AbsId} {set : List IrNode} {fuel fuel' : Nat} (less : fuel ≤ fuel')
    (found : freeFrontier f analysed fuel b = .ok set) :
    freeFrontier f analysed fuel' b = .ok set := by
  induction less with
  | refl => exact found
  | step _ ih => exact (frontier_succ _).2 b set ih

theorem freeFrontier_unique {b : AbsId} {set set' : List IrNode} {fuel fuel' : Nat}
    (found : freeFrontier f analysed fuel b = .ok set)
    (found' : freeFrontier f analysed fuel' b = .ok set') : set = set' := by
  have one := freeFrontier_mono (Nat.le_max_left fuel fuel') found
  have two := freeFrontier_mono (Nat.le_max_right fuel fuel') found'
  exact Except.ok.inj (one.symm.trans two)

end Fuel

/-! ## What a visit has done -/

section Visit
variable (f : FunctionNode) (analysed : AnalysedCFG) (start : CFNodeId)

/-- The visit goes on from a node placed below its start to the operands. -/
def FrontierStep (m o : BodyNode) : Prop :=
  ∃ p, scheduleInstruction analysed m = .ok (some p) ∧
    isDominated analysed.cfg analysed.tree p start = .ok true ∧ o ∈ f.operands m

/-- A node placed elsewhere is in the frontier, or the frontier of a block is part of it. -/
def Contributes (fuel : Nat) (m : BodyNode) (n : IrNode) : Prop :=
  ∃ p, scheduleInstruction analysed m = .ok (some p) ∧
    isDominated analysed.cfg analysed.tree p start = .ok false ∧
    ((m = .value n ∧ n.isValue = true) ∨
      ∃ c inner set, m = .block c ∧ inner < fuel ∧ freeFrontier f analysed inner c = .ok set ∧
        n ∈ set)

/-- A node that was seen. -/
structure Handled (fuel : Nat) (seen : List BodyNode) (m : BodyNode) : Prop where
  scheduled : ∃ place, scheduleInstruction analysed m = .ok place
  operands : ∀ o, FrontierStep f analysed start m o → o ∈ seen
  blocks : ∀ c p, m = .block c → scheduleInstruction analysed m = .ok (some p) →
    isDominated analysed.cfg analysed.tree p start = .ok false →
    ∃ inner set, inner < fuel ∧ freeFrontier f analysed inner c = .ok set
  answered : ∀ p, scheduleInstruction analysed m = .ok (some p) →
    ∃ answer, isDominated analysed.cfg analysed.tree p start = .ok answer

/-- A piece of a visit from `before` to `after`, which starts at `root`. -/
structure Swept (fuel : Nat) (root : BodyNode) (before after : FrontierState) : Prop where
  seen : ∀ m ∈ before.seen, m ∈ after.seen
  handled : ∀ m ∈ after.seen, m ∉ before.seen → Handled f analysed start fuel after.seen m
  frontier : ∀ n, n ∈ after.frontier ↔ n ∈ before.frontier ∨
    ∃ m ∈ after.seen, m ∉ before.seen ∧ Contributes f analysed start fuel m n
  reached : ∀ m ∈ after.seen, m ∉ before.seen →
    Relation.ReflTransGen (FrontierStep f analysed start) root m

variable {f analysed start}

theorem Handled.mono {fuel fuel' : Nat} {seen seen' : List BodyNode} {m : BodyNode}
    (handled : Handled f analysed start fuel seen m) (less : fuel ≤ fuel')
    (grows : ∀ m ∈ seen, m ∈ seen') : Handled f analysed start fuel' seen' m where
  scheduled := handled.scheduled
  operands := fun o step => grows o (handled.operands o step)
  blocks := by
    intro c p isBlock placed outside
    obtain ⟨inner, set, smaller, found⟩ := handled.blocks c p isBlock placed outside
    exact ⟨inner, set, smaller.trans_le less, found⟩
  answered := handled.answered

theorem Swept.refl {fuel : Nat} {root : BodyNode} (s : FrontierState) :
    Swept f analysed start fuel root s s where
  seen := fun _ member => member
  handled := fun _ member fresh => absurd member fresh
  frontier := by
    intro n
    constructor
    · exact Or.inl
    · rintro (old | ⟨m, member, fresh, -⟩)
      · exact old
      · exact absurd member fresh
  reached := fun _ member fresh => absurd member fresh

theorem Swept.trans {fuel : Nat} {root : BodyNode} {first second third : FrontierState}
    (one : Swept f analysed start fuel root first second)
    (two : Swept f analysed start fuel root second third) :
    Swept f analysed start fuel root first third where
  seen := fun m member => two.seen m (one.seen m member)
  handled := by
    intro m member fresh
    by_cases earlier : m ∈ second.seen
    · exact (one.handled m earlier fresh).mono le_rfl two.seen
    · exact two.handled m member earlier
  frontier := by
    intro n
    rw [two.frontier, one.frontier]
    constructor
    · rintro ((old | ⟨m, member, fresh, contributes⟩) | ⟨m, member, fresh, contributes⟩)
      · exact Or.inl old
      · exact Or.inr ⟨m, two.seen m member, fresh, contributes⟩
      · exact Or.inr ⟨m, member, fun early => fresh (one.seen m early), contributes⟩
    · rintro (old | ⟨m, member, fresh, contributes⟩)
      · exact Or.inl (Or.inl old)
      · by_cases earlier : m ∈ second.seen
        · exact Or.inl (Or.inr ⟨m, earlier, fresh, contributes⟩)
        · exact Or.inr ⟨m, member, earlier, contributes⟩
  reached := by
    intro m member fresh
    by_cases earlier : m ∈ second.seen
    · exact one.reached m earlier fresh
    · exact two.reached m member earlier

/-- The operands that are visited in turn. -/
theorem visitOperands_swept {fuel : Nat} {root : BodyNode} {operands : List BodyNode}
    (spec : ∀ n s s', visitFreeFrontier f analysed start fuel n s = .ok s' →
      Swept f analysed start fuel n s s' ∧ n ∈ s'.seen)
    (steps : ∀ o ∈ operands, FrontierStep f analysed start root o) {s s' : FrontierState}
    (ran : operands.foldlM (fun s o => visitFreeFrontier f analysed start fuel o s) s = .ok s') :
    Swept f analysed start fuel root s s' ∧ ∀ o ∈ operands, o ∈ s'.seen := by
  apply foldlM_each (Swept f analysed start fuel root)
    (fun (o : BodyNode) (s : FrontierState) => o ∈ s.seen) Swept.refl Swept.trans
    (fun o s s' known later => later.seen o known) _ ran
  intro o member s s' step
  obtain ⟨swept, known⟩ := spec o s s' step
  exact ⟨{ swept with
    reached := fun m listed fresh => (swept.reached m listed fresh).head (steps o member) }, known⟩

theorem mem_insertAll (ns set : List IrNode) (n : IrNode) :
    n ∈ ns.foldl (fun set n => set.insert n) set ↔ n ∈ set ∨ n ∈ ns := by
  induction ns generalizing set with
  | nil => simp
  | cons m ns ih =>
      rw [List.foldl_cons, ih, List.mem_insert_iff, List.mem_cons]
      tauto

/-- One node that is new, with what follows from it. -/
theorem Swept.enter {fuel : Nat} {n : BodyNode} {before after : FrontierState}
    (fresh : n ∉ before.seen) (handled : Handled f analysed start (fuel + 1) after.seen n)
    (inner : Swept f analysed start fuel n { before with seen := n :: before.seen } after)
    (nothing : ∀ v, ¬ Contributes f analysed start (fuel + 1) n v) :
    Swept f analysed start (fuel + 1) n before after where
  seen := fun m member => inner.seen m (List.mem_cons_of_mem _ member)
  handled := by
    intro m member freshM
    by_cases same : m = n
    · exact same ▸ handled
    · exact (inner.handled m member (by simp [same, freshM])).mono (Nat.le_succ _)
        fun _ member => member
  frontier := by
    intro v
    rw [inner.frontier v]
    constructor
    · rintro (old | ⟨m, member, freshM, contributes⟩)
      · exact Or.inl old
      · rw [List.mem_cons, not_or] at freshM
        obtain ⟨p, placed, outside, which⟩ := contributes
        refine Or.inr ⟨m, member, freshM.2, p, placed, outside, ?_⟩
        rcases which with value | ⟨c, k, set, isBlock, smaller, rest⟩
        · exact Or.inl value
        · exact Or.inr ⟨c, k, set, isBlock, smaller.trans (Nat.lt_succ_self _), rest⟩
    · rintro (old | ⟨m, member, freshM, contributes⟩)
      · exact Or.inl old
      · have different : m ≠ n := by
          rintro rfl
          exact nothing v contributes
        refine Or.inr ⟨m, member, by simp [different, freshM], ?_⟩
        obtain ⟨p, placed, outside, which⟩ := contributes
        refine ⟨p, placed, outside, ?_⟩
        rcases which with value | ⟨c, k, set, isBlock, -, found, inSet⟩
        · exact Or.inl value
        · have known := (inner.handled m member (by simp [different, freshM])).blocks c p isBlock
            placed outside
          obtain ⟨k', set', smaller, found'⟩ := known
          obtain rfl := freeFrontier_unique found found'
          exact Or.inr ⟨c, k', set, isBlock, smaller, found', inSet⟩
  reached := by
    intro m member freshM
    by_cases same : m = n
    · exact same ▸ Relation.ReflTransGen.refl
    · exact inner.reached m member (by simp [same, freshM])

theorem visitFreeFrontier_swept (fuel : Nat) : ∀ n s s',
    visitFreeFrontier f analysed start fuel n s = .ok s' →
    Swept f analysed start fuel n s s' ∧ n ∈ s'.seen := by
  induction fuel with
  | zero =>
      intro n s s' ran
      simp [visitFreeFrontier] at ran
  | succ fuel ih =>
      intro n s s' ran
      rw [visitFreeFrontier] at ran
      split_ifs at ran with known
      · obtain rfl := Except.ok.inj ran
        exact ⟨Swept.refl s, known⟩
      obtain ⟨place, scheduled, ran⟩ := bind_eq_ok.mp ran
      -- a node that is not placed, or not below the start, leads nowhere
      have stops : ∀ {after : FrontierState}, after.seen = n :: s.seen →
          (∀ p, place = some p → isDominated analysed.cfg analysed.tree p start = .ok false) →
          (∀ c p, n = .block c → place = some p →
            ∃ set, freeFrontier f analysed fuel c = .ok set) →
          (∀ v, v ∈ after.frontier ↔ v ∈ s.frontier ∨
            Contributes f analysed start (fuel + 1) n v) →
          Swept f analysed start (fuel + 1) n s after ∧ n ∈ after.seen := by
        intro after sameSeen outside blocks frontier
        have isNew : ∀ m ∈ after.seen, m ∉ s.seen → m = n := by
          intro m member fresh
          rw [sameSeen] at member
          exact (List.mem_cons.mp member).resolve_right fresh
        refine ⟨⟨?_, ?_, ?_, ?_⟩, sameSeen ▸ List.mem_cons_self⟩
        · intro m member
          rw [sameSeen]
          exact List.mem_cons_of_mem _ member
        · intro m member fresh
          obtain rfl := isNew m member fresh
          refine ⟨⟨place, scheduled⟩, ?_, ?_, ?_⟩
          · rintro o ⟨p, placed, below, -⟩
            have same := Except.ok.inj (scheduled.symm.trans placed)
            rw [outside p same] at below
            cases below
          · intro c p isBlock placed _
            have same := Except.ok.inj (scheduled.symm.trans placed)
            obtain ⟨set, found⟩ := blocks c p isBlock same
            exact ⟨fuel, set, Nat.lt_succ_self _, found⟩
          · intro p placed
            exact ⟨false, outside p (Except.ok.inj (scheduled.symm.trans placed))⟩
        · intro v
          rw [frontier v]
          refine or_congr_right ⟨fun contributes => ?_, ?_⟩
          · exact ⟨n, sameSeen ▸ List.mem_cons_self, known, contributes⟩
          · rintro ⟨m, member, fresh, contributes⟩
            exact isNew m member fresh ▸ contributes
        · intro m member fresh
          exact isNew m member fresh ▸ Relation.ReflTransGen.refl
      cases place with
      | none =>
          obtain rfl := pure_eq_ok.mp ran
          apply stops rfl nofun nofun
          intro v
          refine (or_iff_left ?_).symm
          rintro ⟨p, placed, -⟩
          rw [scheduled] at placed
          cases placed
      | some where_ =>
          obtain ⟨below, answered, ran⟩ := bind_eq_ok.mp ran
          cases below with
          | true =>
              have steps : ∀ o ∈ f.operands n, FrontierStep f analysed start n o := fun o member =>
                ⟨where_, scheduled, answered, member⟩
              obtain ⟨swept, all⟩ := visitOperands_swept ih steps ran
              have here := swept.seen n List.mem_cons_self
              refine ⟨swept.enter known ⟨⟨_, scheduled⟩, ?_, ?_, ?_⟩ ?_, here⟩
              · rintro o ⟨p, -, -, member⟩
                exact all o member
              · intro c p _ placed outside
                obtain rfl := Option.some.inj (Except.ok.inj (scheduled.symm.trans placed))
                rw [answered] at outside
                cases outside
              · intro p placed
                obtain rfl := Option.some.inj (Except.ok.inj (scheduled.symm.trans placed))
                exact ⟨true, answered⟩
              · rintro v ⟨p, placed, outside, -⟩
                obtain rfl := Option.some.inj (Except.ok.inj (scheduled.symm.trans placed))
                rw [answered] at outside
                cases outside
          | false =>
              have outside : ∀ p, some where_ = some p →
                  isDominated analysed.cfg analysed.tree p start = .ok false := by
                rintro p same
                exact Option.some.inj same ▸ answered
              cases n with
              | block b =>
                  obtain ⟨other, found, ran⟩ := bind_eq_ok.mp ran
                  obtain rfl := pure_eq_ok.mp ran
                  apply stops rfl outside
                  · rintro c p same -
                    exact BodyNode.block.inj same ▸ ⟨other, found⟩
                  · intro v
                    rw [mem_insertAll]
                    refine or_congr_right ⟨fun member => ?_, ?_⟩
                    · exact ⟨where_, scheduled, answered,
                        Or.inr ⟨b, fuel, other, rfl, Nat.lt_succ_self _, found, member⟩⟩
                    · rintro ⟨p, -, -, ⟨same, -⟩ | ⟨c, k, set, same, -, found', member⟩⟩
                      · cases same
                      · cases same
                        exact freeFrontier_unique found' found ▸ member
              | value m =>
                  simp only [Bool.false_eq_true, if_false] at ran
                  by_cases isValue : m.isValue = true
                  · rw [if_pos isValue] at ran
                    obtain rfl := pure_eq_ok.mp ran
                    apply stops rfl outside nofun
                    intro v
                    rw [List.mem_insert_iff, or_comm]
                    refine or_congr_right ⟨?_, ?_⟩
                    · rintro rfl
                      exact ⟨where_, scheduled, answered, Or.inl ⟨rfl, isValue⟩⟩
                    · rintro ⟨p, -, -, ⟨same, -⟩ | ⟨c, k, set, same, -⟩⟩
                      · exact (BodyNode.value.inj same).symm
                      · cases same
                  · rw [if_neg isValue] at ran
                    obtain rfl := pure_eq_ok.mp ran
                    apply stops rfl outside nofun
                    intro v
                    refine (or_iff_left ?_).symm
                    rintro ⟨p, -, -, ⟨same, holds⟩ | ⟨c, k, set, same, -⟩⟩
                    · exact isValue (BodyNode.value.inj same ▸ holds)
                    · cases same
              | terminator t =>
                  obtain rfl := pure_eq_ok.mp ran
                  apply stops rfl outside nofun
                  intro v
                  refine (or_iff_left ?_).symm
                  rintro ⟨p, -, -, ⟨same, -⟩ | ⟨c, k, set, same, -⟩⟩
                  · cases same
                  · cases same

end Visit

end Shady
