import Shady.Analysis.Scheduling
import Shady.Analysis.DomtreeTotal

/-!
# Placements of well-scoped code

In well-scoped code, the blocks that a node depends on all dominate the code that uses it.
The dominator tree that the scheduler climbs has at least the dominators of the graph, so
that its assertions hold, and a node is placed where the last of its operands is.
-/

set_option autoImplicit false

namespace Shady
open Dominance Fallible

/-! ## The scheduler -/

/-- `scheduled`, the dictionary of the scheduler. -/
abbrev Scheduler := List (BodyNode × Option CFNodeId)

/-- A look-up, and the insertion of what is computed where nothing is found. -/
def Scheduler.memoised (s : Scheduler) (n : BodyNode)
    (compute : Scheduler → Except CfgError (Option CFNodeId × Scheduler)) :
    Except CfgError (Option CFNodeId × Scheduler) :=
  match s.lookup n with
  | some found => .ok (found, s)
  | none => do
      let (result, s) ← compute s
      return (result, (n, result) :: s)

section Memoised
variable (analysed : AnalysedCFG)

def scheduleOwn (abs : AbsId) (s : Scheduler) :
    Except CfgError (Option CFNodeId × Scheduler) := do
  let where_ ← cfgLookup analysed abs
  let result ← scheduleAfter analysed none (some where_)
  return (result, s)

mutual
def Scheduler.scheduleNode (s : Scheduler) :
    IrNode → Except CfgError (Option CFNodeId × Scheduler)
  | .param id abs => s.memoised (.value (.param id abs)) (scheduleOwn analysed abs)
  | .absMem id abs => s.memoised (.value (.absMem id abs)) (scheduleOwn analysed abs)
  | .pure id tag operands =>
      s.memoised (.value (.pure id tag operands)) fun s => s.scheduleOperands none operands
  | .instr id tag mem operands =>
      s.memoised (.value (.instr id tag mem operands)) fun s => do
        let (ofMem, s) ← s.scheduleNode mem
        let result ← scheduleAfter analysed none ofMem
        s.scheduleOperands result operands

def Scheduler.scheduleOperands (s : Scheduler) (result : Option CFNodeId) :
    List IrNode → Except CfgError (Option CFNodeId × Scheduler)
  | [] => .ok (result, s)
  | operand :: operands => do
      let (req, s) ← s.scheduleNode operand
      let result ← scheduleAfter analysed result req
      s.scheduleOperands result operands
end

/-- `shd_schedule_instruction` with its dictionary. -/
def Scheduler.schedule (s : Scheduler) :
    BodyNode → Except CfgError (Option CFNodeId × Scheduler)
  | .value n => s.scheduleNode analysed n
  | .terminator t =>
      s.memoised (.terminator t) fun s => s.scheduleOperands analysed none t.dependencies
  | .block b => s.memoised (.block b) (scheduleOwn analysed b)

/-- Queries to one scheduler, one after the other. -/
def Scheduler.scheduleAll (s : Scheduler) :
    List BodyNode → Except CfgError (List (Option CFNodeId) × Scheduler)
  | [] => .ok ([], s)
  | n :: ns => do
      let (result, s) ← s.schedule analysed n
      let (results, s) ← s.scheduleAll ns
      return (result :: results, s)

/-- What the dictionary holds is what a query without it gives. -/
def Scheduler.Right (s : Scheduler) : Prop :=
  ∀ n result, (n, result) ∈ s → scheduleInstruction analysed n = .ok result

variable {analysed}

theorem memoised_right {s : Scheduler} (right : s.Right analysed) {n : BodyNode}
    {compute : Scheduler → Except CfgError (Option CFNodeId × Scheduler)}
    {result : Option CFNodeId} (direct : scheduleInstruction analysed n = .ok result)
    (computed : ∃ s', compute s = .ok (result, s') ∧ s'.Right analysed) :
    ∃ s', s.memoised n compute = .ok (result, s') ∧ s'.Right analysed := by
  unfold Scheduler.memoised
  cases known : s.lookup n with
  | some found =>
      obtain ⟨before, rest, parts, -⟩ := List.lookup_eq_some_iff.mp known
      have member : (n, found) ∈ s := parts ▸ List.mem_append_right _ List.mem_cons_self
      have same := right n found member
      obtain rfl := Except.ok.inj (same.symm.trans direct)
      exact ⟨s, rfl, right⟩
  | none =>
      obtain ⟨s', ran, right'⟩ := computed
      refine ⟨(n, result) :: s', by simp only [ran]; rfl, ?_⟩
      intro m other member
      cases List.mem_cons.mp member with
      | inl same =>
          cases same
          exact direct
      | inr older => exact right' m other older

theorem scheduleOwn_right {s : Scheduler} (right : s.Right analysed) {abs : AbsId}
    {result : Option CFNodeId}
    (direct : (do
      let where_ ← cfgLookup analysed abs
      scheduleAfter analysed none (some where_)) = .ok result) :
    ∃ s', scheduleOwn analysed abs s = .ok (result, s') ∧ s'.Right analysed := by
  refine ⟨s, ?_, right⟩
  obtain ⟨where_, found, placed⟩ := bind_eq_ok.mp direct
  simp only [scheduleOwn, found, placed, bind, Except.bind]
  rfl

/-- The operands that are scheduled in turn. -/
theorem scheduleOperands_right {operands : List IrNode}
    (each : ∀ o ∈ operands, ∀ s result, Scheduler.Right analysed s →
      scheduleNode analysed o = .ok result →
      ∃ s', s.scheduleNode analysed o = .ok (result, s') ∧ s'.Right analysed) :
    ∀ s start result, Scheduler.Right analysed s →
      scheduleOperands analysed start operands = .ok result →
      ∃ s', s.scheduleOperands analysed start operands = .ok (result, s') ∧
        s'.Right analysed := by
  induction operands with
  | nil =>
      intro s start result right direct
      simp only [scheduleOperands, Except.ok.injEq] at direct
      subst direct
      exact ⟨s, rfl, right⟩
  | cons o operands ih =>
      intro s start result right direct
      unfold scheduleOperands at direct
      obtain ⟨req, first, direct⟩ := bind_eq_ok.mp direct
      obtain ⟨next, after, direct⟩ := bind_eq_ok.mp direct
      obtain ⟨s', ran, right'⟩ := each o List.mem_cons_self s req right first
      obtain ⟨final, ranRest, rightFinal⟩ := ih
        (fun o member => each o (List.mem_cons_of_mem _ member)) s' next result right' direct
      refine ⟨final, ?_, rightFinal⟩
      unfold Scheduler.scheduleOperands
      simp only [ran, after, bind, Except.bind]
      exact ranRest

/-- The dictionary does not change what a query gives. -/
theorem scheduleNode_right (n : IrNode) : ∀ s result, Scheduler.Right analysed s →
    scheduleNode analysed n = .ok result →
    ∃ s', s.scheduleNode analysed n = .ok (result, s') ∧ s'.Right analysed := by
  induction n using IrNode.inductOn with
  | param id abs =>
      intro s result right direct
      unfold Scheduler.scheduleNode
      apply memoised_right (n := .value (.param id abs)) right direct
      apply scheduleOwn_right right
      simpa only [scheduleNode] using direct
  | absMem id abs =>
      intro s result right direct
      unfold Scheduler.scheduleNode
      apply memoised_right (n := .value (.absMem id abs)) right direct
      apply scheduleOwn_right right
      simpa only [scheduleNode] using direct
  | pure id tag operands ih =>
      intro s result right direct
      unfold Scheduler.scheduleNode
      apply memoised_right (n := .value (.pure id tag operands)) right direct
      apply scheduleOperands_right ih s none result right
      simpa only [scheduleNode] using direct
  | instr id tag mem operands ihMem ih =>
      intro s result right direct
      unfold Scheduler.scheduleNode
      apply memoised_right (n := .value (.instr id tag mem operands)) right direct
      unfold scheduleNode at direct
      obtain ⟨ofMem, first, direct⟩ := bind_eq_ok.mp direct
      obtain ⟨start, after, direct⟩ := bind_eq_ok.mp direct
      obtain ⟨s', ran, right'⟩ := ihMem s ofMem right first
      obtain ⟨final, ranRest, rightFinal⟩ :=
        scheduleOperands_right ih s' start result right' direct
      refine ⟨final, ?_, rightFinal⟩
      simp only [ran, after, bind, Except.bind]
      exact ranRest

theorem schedule_right (n : BodyNode) {s : Scheduler} {result : Option CFNodeId}
    (right : s.Right analysed) (direct : scheduleInstruction analysed n = .ok result) :
    ∃ s', s.schedule analysed n = .ok (result, s') ∧ s'.Right analysed := by
  cases n with
  | value n => exact scheduleNode_right n s result right direct
  | terminator t =>
      apply memoised_right right direct
      exact scheduleOperands_right (fun o _ => scheduleNode_right o) s none result right direct
  | block b =>
      apply memoised_right right direct
      exact scheduleOwn_right right direct

end Memoised

/-! ## Well-scoped code -/

/-- The block that the chain of `mem` operands starts in. -/
def IrNode.root : IrNode → Option AbsId
  | .param _ abs => some abs
  | .absMem _ abs => some abs
  | .pure _ _ _ => none
  | .instr _ _ mem _ => mem.root

mutual
/-- What code in the block `b` may use: definitions in blocks that dominate `b`. An
instruction uses its operands where it stands itself. -/
def IrNode.ScopedAt (dom : AbsId → AbsId → Prop) (b : AbsId) : IrNode → Prop
  | .param _ abs => dom abs b
  | .absMem _ abs => dom abs b
  | .pure _ _ operands => scopedAll dom b operands
  | .instr _ _ mem operands => mem.ScopedAt dom b ∧ scopedAll dom (mem.root.getD b) operands

def IrNode.scopedAll (dom : AbsId → AbsId → Prop) (b : AbsId) : List IrNode → Prop
  | [] => True
  | n :: ns => n.ScopedAt dom b ∧ scopedAll dom b ns
end

theorem IrNode.scopedAll_iff (dom : AbsId → AbsId → Prop) (b : AbsId) (ns : List IrNode) :
    scopedAll dom b ns ↔ ∀ n ∈ ns, n.ScopedAt dom b := by
  induction ns with
  | nil => simp [scopedAll]
  | cons n ns ih => simp [scopedAll, ih]

namespace BodyNode

/-- The operands of the classes `mem` and `value`. -/
def dependencies : BodyNode → List IrNode
  | .value n => n.operands
  | .terminator t => t.dependencies
  | .block _ => []

/-- The block that a node is bound to. -/
def root : BodyNode → Option AbsId
  | .value n => n.root
  | .terminator _ => none
  | .block b => some b

end BodyNode

/-- `a` dominates `b` in the graph. -/
def AnalysedCFG.Dom (analysed : AnalysedCFG) (a b : CFNodeId) : Prop :=
  Dominates analysed.cfg.Edge analysed.cfg.entry a b

section Body
variable (f : FunctionNode) (analysed : AnalysedCFG)

/-- A node of the code of the block `b`. -/
inductive FunctionNode.InBody (b : AbsId) : BodyNode → Prop
  | block {abs : AbstractionNode} (inside : some b ∈ analysed.cfg.contents)
      (found : f.get b = some abs) (isBlock : abs.isFunction = false) : InBody b (.block b)
  | terminator {abs : AbstractionNode} {t : TerminatorNode}
      (inside : some b ∈ analysed.cfg.contents) (found : f.get b = some abs)
      (body : abs.body = some t) : InBody b (.terminator t)
  | jump {t j : TerminatorNode} (ends : InBody b (.terminator t))
      (operand : .terminator j ∈ t.operands) : InBody b (.terminator j)
  | dependency {t : TerminatorNode} {n : IrNode} (ends : InBody b (.terminator t))
      (uses : n ∈ t.dependencies) : InBody b (.value n)
  | operand {n o : IrNode} (user : InBody b (.value n)) (uses : o ∈ n.operands) :
      InBody b (.value o)

/-- Each use of a parameter or an instruction is dominated by its definition. -/
def FunctionNode.WellScoped : Prop :=
  ∀ b t, f.InBody analysed b (.terminator t) → ∀ n ∈ t.dependencies,
    n.ScopedAt (fun a b => analysed.Dom (some a) (some b)) b

/-- Where a node is scheduled. -/
def placement (n : BodyNode) : Option CFNodeId :=
  match scheduleInstruction analysed n with
  | .ok result => result
  | .error _ => none

def operandPlaces (n : BodyNode) : List CFNodeId :=
  n.dependencies.filterMap fun o => placement analysed (.value o)

/-- A node is placed after its operands, as early as possible. -/
structure WellPlaced (n : BodyNode) : Prop where
  chain : ∀ p ∈ operandPlaces analysed n, ∀ q ∈ operandPlaces analysed n,
    analysed.Dom p q ∨ analysed.Dom q p
  after : ∀ p ∈ operandPlaces analysed n, ∃ q, placement analysed n = some q ∧ analysed.Dom p q
  earliest : n.dependencies ≠ [] → ∀ q, placement analysed n = some q →
    ∀ c, (∀ p ∈ operandPlaces analysed n, analysed.Dom p c) → analysed.Dom q c
  own : ∀ b, n.root = some b → placement analysed n = some (some b)

end Body

/-! ## Dominance queries -/

section Queries
variable {function : Function} {entry : AbsId} {config : CFGBuildConfig} {analysed : AnalysedCFG}

/-- What the scheduler relies on. -/
structure AnalysedCFG.Sound (analysed : AnalysedCFG) : Prop where
  reachable : ∀ v ∈ analysed.cfg.contents, Reachable analysed.cfg.Edge analysed.cfg.entry v
  inside : ∀ v, Reachable analysed.cfg.Edge analysed.cfg.entry v → v ∈ analysed.cfg.contents
  query : ∀ a v, v ∈ analysed.cfg.contents → analysed.Dom a v →
    isDominated analysed.cfg analysed.tree v a = .ok true
  rank : ∀ a v, v ∈ analysed.cfg.contents → analysed.Dom a v → a ≠ v →
    analysed.rpo.rank a < analysed.rpo.rank v

/-- The dominator tree that queries climb. It may have dominators too many, but none too
few. -/
structure AnalysedCFG.Climbed (analysed : AnalysedCFG) : Prop where
  answer : ∀ v ∈ analysed.cfg.contents, ∀ a, ∃ answer,
    isDominated analysed.cfg analysed.tree v a = .ok answer ∧
      (answer = true ↔ Above analysed.tree.idom v a)
  above : ∀ a v, v ∈ analysed.cfg.contents → analysed.Dom a v → Above analysed.tree.idom v a
  rank : ∀ v a, Above analysed.tree.idom v a → a ≠ v → analysed.rpo.rank a < analysed.rpo.rank v

theorem newCfg_climbed (forward : config.flipped = false)
    (built : newCfg function entry config = .ok analysed) :
    analysed.Climbed ∧ analysed.cfg.WellFormed ∧
      (∀ v ∈ analysed.cfg.contents, Reachable analysed.cfg.Edge analysed.cfg.entry v) ∧
      buildCfg function entry config = .ok analysed.cfg := by
  obtain ⟨cfg, rpo, tree⟩ := analysed
  obtain ⟨cfg', graph, rest⟩ := bind_eq_ok.mp built
  obtain ⟨same, unflipped, rest⟩ := bind_eq_ok.mp rest
  rw [if_neg (by simp [forward])] at unflipped
  obtain rfl := Except.ok.inj unflipped
  obtain ⟨rpo', numbered, rest⟩ := bind_eq_ok.mp rest
  obtain ⟨tree', computed, rest⟩ := bind_eq_ok.mp rest
  cases pure_eq_ok.mp rest
  obtain ⟨wellFormed, reachable⟩ := buildCfg_spec graph
  obtain ⟨rpo', numbered', numbers⟩ := computeRpo_numbers wellFormed reachable
  obtain rfl := Except.ok.inj (numbered.symm.trans numbered')
  obtain ⟨invariant, exact, -⟩ := computeDomtree_trimmed numbers wellFormed computed
  have structured : tree.structuredIdom = structuredIdom cfg := by
    unfold computeDomtree at computed
    obtain ⟨_, -, computed⟩ := bind_eq_ok.mp computed
    obtain ⟨_, -, computed⟩ := bind_eq_ok.mp computed
    obtain rfl := pure_eq_ok.mp computed
    rfl
  have fewer : ∀ p v, (cfg.trimmed rpo).Edge p v → cfg.Edge p v := by
    intro p v follows
    obtain ⟨e, member, src⟩ := ((trimmed_wellFormed wellFormed).edge_iff_pred p v).mp follows
    obtain ⟨e', listed, sameSrc, -⟩ := mem_trimmedPreds member
    exact (wellFormed.edge_iff_pred p v).mpr ⟨e', listed, sameSrc.trans src⟩
  have reaches := (trimmed_numbers numbers wellFormed).reachable (trimmed_wellFormed wellFormed)
  have plain : ∀ n, tree.idom n = none → tree.structuredIdom n = none := by
    intro n top
    rw [structured]
    unfold structuredIdom
    by_cases inner : n ∈ cfg.contents ∧ n ≠ cfg.entry
    · obtain ⟨p, parent⟩ := invariant.tree.total n (reaches n inner.1) inner.2
      rw [top] at parent
      cases parent
    · exact if_neg inner
  have climbed : AnalysedCFG.Climbed ⟨cfg, rpo, tree⟩ :=
    { answer := by
        intro v inside a
        exact isDominated_climb tree invariant.tree plain a cfg.size v
          (numbers.rank_lt wellFormed inside)
      above := by
        intro a v inside dominates
        exact (exact v (reaches v inside) a).mp (Dominates.mono fewer dominates)
      rank := by
        intro v a above different
        obtain same | ⟨p, parent, rest⟩ := (above_iff v a).mp above
        · exact absurd same different
        · exact (invariant.tree.rank_le rest).trans_lt (invariant.tree.lower v p parent) }
  exact ⟨climbed, wellFormed, reachable, graph⟩

theorem newCfg_sound (forward : config.flipped = false)
    (built : newCfg function entry config = .ok analysed) : analysed.Sound := by
  obtain ⟨climbed, wellFormed, reachable, -⟩ := newCfg_climbed forward built
  exact
    { reachable := reachable
      inside := fun v reaches => wellFormed.reachable_mem reaches
      query := by
        intro a v inside dominates
        obtain ⟨answer, found, iff⟩ := climbed.answer v inside a
        rw [found, iff.mpr (climbed.above a v inside dominates)]
      rank := by
        intro a v inside dominates different
        exact climbed.rank v a (climbed.above a v inside dominates) different }

end Queries

/-! ## Placements -/

section Place
variable {analysed : AnalysedCFG} (sound : analysed.Sound)

/-- The last of some places, if there are any. -/
def Last (analysed : AnalysedCFG) (places : List CFNodeId) : Option CFNodeId → Prop
  | none => places = []
  | some p => p ∈ places ∧ ∀ q ∈ places, analysed.Dom q p

theorem scheduleOwn_spec {abs : AbsId} (inside : some abs ∈ analysed.cfg.contents) :
    (do
      let where_ ← cfgLookup analysed abs
      scheduleAfter analysed none (some where_)) = .ok (some (some abs)) := by
  unfold cfgLookup
  rw [if_pos inside]
  rfl

include sound

/-- Of two places that dominate one, the later is taken. -/
theorem scheduleAfter_spec {c : CFNodeId} (inside : c ∈ analysed.cfg.contents)
    {places more : List CFNodeId} {scheduled req : Option CFNodeId}
    (last : Last analysed places scheduled) (next : Last analysed more req)
    (above : ∀ p, scheduled = some p → analysed.Dom p c)
    (aboveNext : ∀ p, req = some p → analysed.Dom p c) :
    ∃ result, scheduleAfter analysed scheduled req = .ok result ∧
      Last analysed (places ++ more) result ∧ ∀ p, result = some p → analysed.Dom p c := by
  cases req with
  | none =>
      have empty : more = [] := next
      exact ⟨scheduled, by cases scheduled <;> rfl, by rwa [empty, List.append_nil], above⟩
  | some req =>
      cases scheduled with
      | none =>
          have empty : places = [] := last
          exact ⟨some req, rfl, by rwa [empty, List.nil_append], aboveNext⟩
      | some old =>
          have oldC := above old rfl
          have reqC := aboveNext req rfl
          have member : ∀ p, analysed.Dom p c → p ∈ analysed.cfg.contents := by
            intro p dominates
            obtain ⟨visited, walk⟩ := sound.reachable c inside
            exact sound.inside p (walk.mem_reachable (dominates visited walk))
          have ordered := Dominates.comparable (sound.reachable c inside) oldC reqC
          unfold scheduleAfter
          by_cases later : analysed.rpo.rank req > analysed.rpo.rank old
          · have below : analysed.Dom old req := by
              cases ordered with
              | inl below => exact below
              | inr before =>
                  by_cases same : req = old
                  · rw [same] at later
                    exact absurd later (lt_irrefl _)
                  · have := sound.rank req old (member old oldC) before same
                    omega
            refine ⟨some req, ?_, ⟨List.mem_append_right _ next.1, ?_⟩, aboveNext⟩
            · simp only [if_pos later, sound.query old req (member req reqC) below, bind,
                Except.bind, if_true]
              rfl
            · intro q listed
              cases List.mem_append.mp listed with
              | inl first => exact (last.2 q first).trans below
              | inr second => exact next.2 q second
          · have before : analysed.Dom req old := by
              cases ordered with
              | inr before => exact before
              | inl below =>
                  by_cases same : old = req
                  · rw [same]
                    exact dominates_refl _
                  · have := sound.rank old req (member req reqC) below same
                    omega
            refine ⟨some old, ?_, ⟨List.mem_append_left _ last.1, ?_⟩, above⟩
            · simp only [if_neg later, sound.query req old (member old oldC) before, bind,
                Except.bind, if_true]
              rfl
            · intro q listed
              cases List.mem_append.mp listed with
              | inl first => exact last.2 q first
              | inr second => exact (next.2 q second).trans before

/-- The operands, if they are placed above `c`. -/
theorem scheduleOperands_spec {c : CFNodeId} (inside : c ∈ analysed.cfg.contents)
    {operands : List IrNode}
    (each : ∀ o ∈ operands, ∃ result, scheduleNode analysed o = .ok result ∧
      ∀ p, result = some p → analysed.Dom p c) :
    ∀ start places, Last analysed places start → (∀ p, start = some p → analysed.Dom p c) →
      ∃ result, scheduleOperands analysed start operands = .ok result ∧
        Last analysed
          (places ++ operands.filterMap fun o => placement analysed (.value o)) result ∧
        ∀ p, result = some p → analysed.Dom p c := by
  induction operands with
  | nil =>
      intro start places last above
      exact ⟨start, rfl, by simpa using last, above⟩
  | cons o operands ih =>
      intro start places last above
      obtain ⟨req, placed, aboveReq⟩ := each o List.mem_cons_self
      have place : placement analysed (.value o) = req := by
        simp only [placement, scheduleInstruction, placed]
      have single : Last analysed req.toList req := by
        cases req with
        | none => rfl
        | some p =>
            refine ⟨List.mem_singleton.mpr rfl, ?_⟩
            intro q member
            rw [List.mem_singleton.mp member]
            exact dominates_refl p
      obtain ⟨next, after, lastNext, aboveNext⟩ :=
        scheduleAfter_spec sound inside last single above aboveReq
      obtain ⟨result, rest, lastResult, aboveResult⟩ := ih
        (fun o member => each o (List.mem_cons_of_mem _ member)) next _ lastNext aboveNext
      refine ⟨result, ?_, ?_, aboveResult⟩
      · unfold scheduleOperands
        simp only [placed, after, bind, Except.bind]
        exact rest
      · have split : (o :: operands).filterMap (fun o => placement analysed (.value o)) =
            req.toList ++ operands.filterMap fun o => placement analysed (.value o) := by
          simp only [List.filterMap_cons, place]
          cases req <;> rfl
        rwa [split, ← List.append_assoc]

theorem dominator_inside {a v : CFNodeId} (inside : v ∈ analysed.cfg.contents)
    (dominates : analysed.Dom a v) : a ∈ analysed.cfg.contents := by
  obtain ⟨visited, walk⟩ := sound.reachable v inside
  exact sound.inside a (walk.mem_reachable (dominates visited walk))

/-- A place that is among those before the last one, and after it. -/
theorem Last.eq_of_mem {places : List CFNodeId} {result : Option CFNodeId} {c : CFNodeId}
    (inside : c ∈ analysed.cfg.contents) (last : Last analysed places result)
    (member : c ∈ places) (above : ∀ p, result = some p → analysed.Dom p c) :
    result = some c := by
  cases result with
  | none =>
      have empty : places = [] := last
      rw [empty] at member
      cases member
  | some p =>
      have below := last.2 c member
      rw [Dominates.antisymm (sound.reachable c inside) below (above p rfl)]

/-- A node that is used in scope is placed above its use, and at the start of its chain if
it has one. -/
theorem scheduleNode_spec (n : IrNode) : ∀ b : AbsId, some b ∈ analysed.cfg.contents →
    n.ScopedAt (fun a b => analysed.Dom (some a) (some b)) b →
    ∃ result, scheduleNode analysed n = .ok result ∧
      (∀ p, result = some p → analysed.Dom p (some b)) ∧
      (∀ h, n.root = some h → result = some (some h)) ∧
      (n.operands ≠ [] → Last analysed (operandPlaces analysed (.value n)) result) := by
  induction n using IrNode.inductOn with
  | param id abs =>
      intro b inside scope
      have insideAbs := dominator_inside sound inside scope
      refine ⟨some (some abs), scheduleOwn_spec insideAbs, ?_, ?_, ?_⟩
      · rintro p same
        exact Option.some.inj same ▸ scope
      · rintro h same
        rw [Option.some.inj same]
      · exact fun operands => absurd rfl operands
  | absMem id abs =>
      intro b inside scope
      have insideAbs := dominator_inside sound inside scope
      refine ⟨some (some abs), scheduleOwn_spec insideAbs, ?_, ?_, ?_⟩
      · rintro p same
        exact Option.some.inj same ▸ scope
      · rintro h same
        rw [Option.some.inj same]
      · exact fun operands => absurd rfl operands
  | pure id tag operands ih =>
      intro b inside scope
      unfold IrNode.ScopedAt at scope
      rw [IrNode.scopedAll_iff] at scope
      obtain ⟨result, placed, last, above⟩ := scheduleOperands_spec sound inside
        (fun o member => by
          obtain ⟨result, placed, above, -⟩ := ih o member b inside (scope o member)
          exact ⟨result, placed, above⟩)
        none [] rfl nofun
      exact ⟨result, by unfold scheduleNode; exact placed, above, nofun, fun _ => last⟩
  | instr id tag mem operands ihMem ih =>
      intro b inside scope
      unfold IrNode.ScopedAt at scope
      rw [IrNode.scopedAll_iff] at scope
      obtain ⟨scopeMem, scope⟩ := scope
      obtain ⟨ofMem, placedMem, aboveMem, own, -⟩ := ihMem b inside scopeMem
      have placeMem : placement analysed (.value mem) = ofMem := by
        simp only [placement, scheduleInstruction, placedMem]
      -- the block in which the operands are used
      have site : some (mem.root.getD b) ∈ analysed.cfg.contents ∧
          analysed.Dom (some (mem.root.getD b)) (some b) ∧
          ∀ p, ofMem = some p → analysed.Dom p (some (mem.root.getD b)) := by
        cases root : mem.root with
        | none => exact ⟨inside, dominates_refl _, aboveMem⟩
        | some h =>
            have dominates := aboveMem (some h) (own h root)
            refine ⟨dominator_inside sound inside dominates, dominates, ?_⟩
            intro p same
            rw [own h root] at same
            exact Option.some.inj same ▸ dominates_refl _
      obtain ⟨insideSite, siteAbove, memAbove⟩ := site
      have start : Last analysed ofMem.toList ofMem := by
        cases ofMem with
        | none => rfl
        | some p =>
            refine ⟨List.mem_singleton.mpr rfl, ?_⟩
            intro q member
            rw [List.mem_singleton.mp member]
            exact dominates_refl p
      obtain ⟨result, placed, last, above⟩ := scheduleOperands_spec sound insideSite
        (fun o member => by
          obtain ⟨result, placed, above, -⟩ := ih o member _ insideSite (scope o member)
          exact ⟨result, placed, above⟩)
        ofMem ofMem.toList start memAbove
      refine ⟨result, ?_, ?_, ?_, ?_⟩
      · unfold scheduleNode
        simp only [placedMem, bind, Except.bind]
        have first : scheduleAfter analysed none ofMem = .ok ofMem := by cases ofMem <;> rfl
        rw [first]
        exact placed
      · exact fun p same => (above p same).trans siteAbove
      · intro h root
        have rootMem : mem.root = some h := root
        rw [rootMem] at above insideSite
        apply Last.eq_of_mem sound insideSite last _ above
        rw [own h rootMem]
        exact List.mem_append_left _ (List.mem_singleton.mpr rfl)
      · intro _
        have split : operandPlaces analysed (.value (.instr id tag mem operands)) =
            ofMem.toList ++ operands.filterMap fun o => placement analysed (.value o) := by
          simp only [operandPlaces, BodyNode.dependencies, IrNode.operands, List.filterMap_cons,
            placeMem]
          cases ofMem <;> rfl
        rw [split]
        exact last

end Place

/-! ## Nodes of a body -/

section Nodes
variable {analysed : AnalysedCFG} {f : FunctionNode}

theorem FunctionNode.InBody.inside {b : AbsId} {n : BodyNode} (body : f.InBody analysed b n) :
    some b ∈ analysed.cfg.contents := by
  induction body with
  | block inside _ _ => exact inside
  | terminator inside _ _ => exact inside
  | jump _ _ ih => exact ih
  | dependency _ _ ih => exact ih
  | operand _ _ ih => exact ih

/-- A node of a chain is in scope at the start of the chain. -/
theorem IrNode.ScopedAt.at_root {n : IrNode} {b h : AbsId}
    (scope : n.ScopedAt (fun a b => analysed.Dom (some a) (some b)) b) (root : n.root = some h) :
    n.ScopedAt (fun a b => analysed.Dom (some a) (some b)) h := by
  induction n using IrNode.inductOn with
  | param id abs =>
      obtain rfl := Option.some.inj root
      exact dominates_refl _
  | absMem id abs =>
      obtain rfl := Option.some.inj root
      exact dominates_refl _
  | pure id tag operands _ => cases root
  | instr id tag mem operands ihMem _ =>
      have rootMem : mem.root = some h := root
      unfold IrNode.ScopedAt at scope ⊢
      refine ⟨ihMem scope.1 rootMem, ?_⟩
      have uses := scope.2
      rw [rootMem] at uses ⊢
      exact uses

variable (sound : analysed.Sound)
include sound

/-- The operands of a node that is used in scope are used in scope, in one block. -/
theorem operands_scoped {n : IrNode} {b : AbsId} (inside : some b ∈ analysed.cfg.contents)
    (scope : n.ScopedAt (fun a b => analysed.Dom (some a) (some b)) b) :
    ∃ c, some c ∈ analysed.cfg.contents ∧ analysed.Dom (some c) (some b) ∧
      ∀ o ∈ n.operands, o.ScopedAt (fun a b => analysed.Dom (some a) (some b)) c := by
  cases n with
  | param id abs => exact ⟨b, inside, dominates_refl _, nofun⟩
  | absMem id abs => exact ⟨b, inside, dominates_refl _, nofun⟩
  | pure id tag operands =>
      unfold IrNode.ScopedAt at scope
      exact ⟨b, inside, dominates_refl _, (IrNode.scopedAll_iff _ _ _).mp scope⟩
  | instr id tag mem operands =>
      unfold IrNode.ScopedAt at scope
      rw [IrNode.scopedAll_iff] at scope
      obtain ⟨scopeMem, scope⟩ := scope
      obtain ⟨ofMem, -, above, own, -⟩ := scheduleNode_spec sound mem b inside scopeMem
      refine ⟨mem.root.getD b, ?_⟩
      cases root : mem.root with
      | none =>
          rw [root] at scope
          refine ⟨inside, dominates_refl _, ?_⟩
          intro o member
          cases List.mem_cons.mp member with
          | inl same => exact same ▸ scopeMem
          | inr listed => exact scope o listed
      | some h =>
          rw [root] at scope
          have dominates := above (some h) (own h root)
          refine ⟨dominator_inside sound inside dominates, dominates, ?_⟩
          intro o member
          cases List.mem_cons.mp member with
          | inl same => exact same ▸ scopeMem.at_root root
          | inr listed => exact scope o listed

/-- All nodes of a well-scoped body are used in scope, in a block above their code. -/
theorem value_scoped (well : f.WellScoped analysed) {b : AbsId} {n : IrNode}
    (body : f.InBody analysed b (.value n)) :
    ∃ c, some c ∈ analysed.cfg.contents ∧ analysed.Dom (some c) (some b) ∧
      n.ScopedAt (fun a b => analysed.Dom (some a) (some b)) c := by
  generalize isValue : BodyNode.value n = node at body
  induction body generalizing n with
  | block _ _ _ => cases isValue
  | terminator _ _ _ => cases isValue
  | jump _ _ _ => cases isValue
  | dependency ends uses _ =>
      obtain rfl := BodyNode.value.inj isValue
      exact ⟨b, ends.inside, dominates_refl _, well b _ ends _ uses⟩
  | operand user uses ih =>
      obtain rfl := BodyNode.value.inj isValue
      obtain ⟨c, inside, above, scope⟩ := ih rfl
      obtain ⟨d, insideD, aboveC, scopeAll⟩ := operands_scoped sound inside scope
      exact ⟨d, insideD, aboveC.trans above, scopeAll _ uses⟩

/-- What the placements of operands that are used in scope in the block `c` make of those
of a node. -/
theorem wellPlaced_of_last {n : BodyNode} {result : Option CFNodeId} {c : AbsId}
    (inside : some c ∈ analysed.cfg.contents)
    (placed : scheduleInstruction analysed n = .ok result)
    (last : n.dependencies ≠ [] → Last analysed (operandPlaces analysed n) result)
    (above : ∀ p ∈ operandPlaces analysed n, analysed.Dom p (some c))
    (own : ∀ b, n.root = some b → result = some (some b)) : WellPlaced analysed n := by
  have place : placement analysed n = result := by
    simp only [placement, placed]
  have some_of_mem : ∀ p ∈ operandPlaces analysed n, n.dependencies ≠ [] := by
    intro p member empty
    rw [operandPlaces, empty] at member
    cases member
  constructor
  · intro p memberP q memberQ
    exact Dominates.comparable (sound.reachable _ inside) (above p memberP) (above q memberQ)
  · intro p member
    have whole := last (some_of_mem p member)
    cases result with
    | none =>
        have empty : operandPlaces analysed n = [] := whole
        rw [empty] at member
        cases member
    | some q => exact ⟨q, place, whole.2 p member⟩
  · intro operands q isPlace d all
    have whole := last operands
    rw [← place, isPlace] at whole
    exact all q whole.1
  · intro b root
    rw [place]
    exact own b root

/-- The operands of a node, if they are used in scope in the block `c`. -/
theorem operandPlaces_above {n : BodyNode} {c : AbsId} (inside : some c ∈ analysed.cfg.contents)
    (scope : ∀ o ∈ n.dependencies,
      o.ScopedAt (fun a b => analysed.Dom (some a) (some b)) c) :
    ∀ p ∈ operandPlaces analysed n, analysed.Dom p (some c) := by
  intro p member
  obtain ⟨o, listed, isPlace⟩ := List.mem_filterMap.mp member
  obtain ⟨result, placed, above, -⟩ := scheduleNode_spec sound o c inside (scope o listed)
  apply above p
  simpa only [placement, scheduleInstruction, placed] using isPlace

theorem node_wellPlaced (well : f.WellScoped analysed) {b : AbsId} {n : BodyNode}
    (body : f.InBody analysed b n) :
    ∃ result, scheduleInstruction analysed n = .ok result ∧ WellPlaced analysed n ∧
      ∀ p, result = some p → analysed.Dom p (some b) := by
  cases n with
  | block own =>
      cases body with
      | block inside _ _ =>
          have placed : scheduleInstruction analysed (.block b) = .ok (some (some b)) :=
            scheduleOwn_spec inside
          refine ⟨some (some b), placed, ?_, ?_⟩
          · apply wellPlaced_of_last sound inside placed
            · exact fun operands => absurd rfl operands
            · exact nofun
            · rintro c same
              rw [Option.some.inj same]
          · rintro p same
            exact Option.some.inj same ▸ dominates_refl _
  | terminator t =>
      have scope := well b t body
      obtain ⟨result, placed, last, above⟩ := scheduleOperands_spec sound body.inside
        (fun o member => by
          obtain ⟨result, placed, above, -⟩ :=
            scheduleNode_spec sound o b body.inside (scope o member)
          exact ⟨result, placed, above⟩)
        none [] rfl nofun
      refine ⟨result, placed, ?_, above⟩
      exact wellPlaced_of_last sound body.inside placed (fun _ => last)
        (operandPlaces_above sound body.inside scope) nofun
  | value n =>
      obtain ⟨c, inside, aboveB, scope⟩ := value_scoped sound well body
      obtain ⟨result, placed, above, own, last⟩ := scheduleNode_spec sound n c inside scope
      obtain ⟨d, insideD, -, operands⟩ := operands_scoped sound inside scope
      refine ⟨result, placed, ?_, fun p same => (above p same).trans aboveB⟩
      exact wellPlaced_of_last sound insideD placed last
        (operandPlaces_above sound insideD operands) own

omit sound in
theorem scheduleAll_spec {queries : List BodyNode}
    (each : ∀ n ∈ queries, ∃ result, scheduleInstruction analysed n = .ok result) :
    ∀ s, Scheduler.Right analysed s → ∃ s',
      s.scheduleAll analysed queries = .ok (queries.map (placement analysed), s') := by
  induction queries with
  | nil => exact fun s _ => ⟨s, rfl⟩
  | cons n queries ih =>
      intro s right
      obtain ⟨result, placed⟩ := each n List.mem_cons_self
      obtain ⟨s', ran, right'⟩ := schedule_right n right placed
      obtain ⟨final, ranRest⟩ :=
        ih (fun n member => each n (List.mem_cons_of_mem _ member)) s' right'
      have place : placement analysed n = result := by
        simp only [placement, placed]
      refine ⟨final, ?_⟩
      unfold Scheduler.scheduleAll
      simp only [ran, ranRest, bind, Except.bind, List.map_cons, place]
      rfl

end Nodes

/-- Whatever is asked of a scheduler for the nodes of a well-scoped body, no assertion fails
and each node is placed after its operands, as early as possible; every path to code that
depends on a node goes through its place. -/
theorem schedule_wellPlaced (f : FunctionNode) (entry : AbsId) (config : CFGBuildConfig)
    (analysed : AnalysedCFG) (forward : config.flipped = false)
    (built : newCfg f.controlFlow entry config = .ok analysed) (well : f.WellScoped analysed) :
    (∀ queries : List BodyNode, (∀ n ∈ queries, ∃ b, f.InBody analysed b n) → ∃ s,
      Scheduler.scheduleAll analysed [] queries =
        .ok (queries.map (placement analysed), s)) ∧
    ∀ b n, f.InBody analysed b n → WellPlaced analysed n ∧
      ∀ p, placement analysed n = some p → ∀ visited,
        Walk analysed.cfg.Edge analysed.cfg.entry (some b) visited → p ∈ visited := by
  have sound := newCfg_sound forward built
  constructor
  · intro queries inBody
    apply scheduleAll_spec _ [] nofun
    intro n member
    obtain ⟨b, body⟩ := inBody n member
    obtain ⟨result, placed, -⟩ := node_wellPlaced sound well body
    exact ⟨result, placed⟩
  · intro b n body
    obtain ⟨result, placed, wellPlaced, above⟩ := node_wellPlaced sound well body
    refine ⟨wellPlaced, fun p isPlace => above p ?_⟩
    simpa only [placement, placed] using isPlace

/-- A function that jumps to a block with its parameter `10`, which the block uses in a load
and in a sum. -/
def loadAndAdd : FunctionNode where
  self := 0
  abstractions := [
    (0, ⟨true, [.param 10 0], some (.jump ⟨.absMem 11 0, 1, []⟩)⟩),
    (1, ⟨false, [], some (.fnRet (.instr 13 .load (.absMem 12 1) [.param 10 0])
      [.pure 14 .primOp [.param 10 0, .instr 13 .load (.absMem 12 1) [.param 10 0]]])⟩)]

theorem loadAndAdd_noJumps {b : AbsId} {t : TerminatorNode}
    (ends : (loadAndAdd.get b).bind AbstractionNode.body = some t) (j : TerminatorNode) :
    .terminator j ∉ t.operands := by
  match b, ends with
  | 0, ends =>
      obtain rfl := Option.some.inj ends
      simp [TerminatorNode.operands]
  | 1, ends =>
      obtain rfl := Option.some.inj ends
      simp [TerminatorNode.operands, TerminatorNode.dependencies]

theorem loadAndAdd_wellPlaced : ∃ analysed,
    newCfg loadAndAdd.controlFlow 0 defaultForwardCfgBuild = .ok analysed ∧
    (∀ queries : List BodyNode, (∀ n ∈ queries, ∃ b, loadAndAdd.InBody analysed b n) → ∃ s,
      Scheduler.scheduleAll analysed [] queries =
        .ok (queries.map (placement analysed), s)) ∧
    ∀ b n, loadAndAdd.InBody analysed b n → WellPlaced analysed n ∧
      ∀ p, placement analysed n = some p → ∀ visited,
        Walk analysed.cfg.Edge analysed.cfg.entry (some b) visited → p ∈ visited := by
  have summary : (newCfg loadAndAdd.controlFlow 0 defaultForwardCfgBuild).map
      (fun analysed => analysed.cfg.entry) = .ok (some 0) := by
    decide +kernel
  cases built : newCfg loadAndAdd.controlFlow 0 defaultForwardCfgBuild with
  | error e =>
      rw [built] at summary
      cases summary
  | ok analysed =>
      rw [built] at summary
      have entry : analysed.cfg.entry = some 0 := Except.ok.inj summary
      have bodies : ∀ b t, loadAndAdd.InBody analysed b (.terminator t) →
          (loadAndAdd.get b).bind AbstractionNode.body = some t := by
        intro b t body
        generalize isTerminator : BodyNode.terminator t = node at body
        induction body generalizing t with
        | block _ _ _ => cases isTerminator
        | dependency _ _ _ => cases isTerminator
        | operand _ _ _ => cases isTerminator
        | terminator _ found body =>
            obtain rfl := BodyNode.terminator.inj isTerminator
            rw [found]
            exact body
        | jump ends operand ih =>
            -- no terminator of the function contains jumps
            exact absurd operand (loadAndAdd_noJumps (ih _ rfl) _)
      have dominates : ∀ b, analysed.Dom (some 0) (some b) := by
        intro b visited walk
        exact entry ▸ walk.root_mem
      have well : loadAndAdd.WellScoped analysed := by
        intro b t body n uses
        have ends := bodies b t body
        match b, ends with
        | 0, ends =>
            obtain rfl := Option.some.inj ends
            obtain rfl := List.mem_singleton.mp uses
            exact dominates 0
        | 1, ends =>
            obtain rfl := Option.some.inj ends
            have load : (IrNode.instr 13 .load (.absMem 12 1) [.param 10 0]).ScopedAt
                (fun a b => analysed.Dom (some a) (some b)) 1 :=
              ⟨dominates_refl _, dominates 1, trivial⟩
            cases List.mem_cons.mp uses with
            | inl same => exact same ▸ load
            | inr later =>
                obtain rfl := List.mem_singleton.mp later
                exact ⟨dominates 1, load, trivial⟩
      exact ⟨analysed, rfl, schedule_wellPlaced loadAndAdd 0 defaultForwardCfgBuild analysed rfl
        built well⟩

end Shady
