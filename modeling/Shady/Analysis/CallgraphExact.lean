import Mathlib.Algebra.GroupWithZero.Nat
import Mathlib.Data.Fintype.Card
import Shady.Library.Search
import Shady.Analysis.CallgraphTarjan

/-!
# Recursion flags

A function whose visit has ended has an edge to each function it calls, and is marked if
it calls itself. With the marks for longer chains, `is_recursive` tells exactly whether a
function lies on a cycle of calls.
-/

set_option autoImplicit false

namespace Shady.Callgraph
open Fallible Tarjan

variable {count : Nat}

/-! ## Direct calls -/

/-- A call of `g`, with the function itself or an immediate `FnAddr` as the callee. -/
inductive MemNode.Targets : MemNode count → Fin count → Prop
  | call (g : Fin count) : Targets (.call (.function g)) g
  | callFnAddr (g : Fin count) : Targets (.call (.fnAddr g)) g
  | tailCall (g : Fin count) : Targets (.tailCall (.function g)) g
  | tailCallFnAddr (g : Fin count) : Targets (.tailCall (.fnAddr g)) g

/-- A node on the chain of some block of the body of the function. -/
def FunctionNode.Contains (fn : FunctionNode) (instr : InstrId) : Prop :=
  fn.hasBody = true ∧ ∃ analysed,
    newCfg fn.controlFlow fn.controlFlow.self defaultForwardCfgBuild = .ok analysed ∧
      ∃ block, some block ∈ analysed.cfg.contents ∧ instr ∈ fn.memChain block

def Module.Calls (m : Module count) (f g : Fin count) : Prop :=
  ∃ instr, (m.function f).Contains instr ∧ (m.node instr).Targets g

/-- The compiler can build the graph of each body, and no initial value contains a call. -/
structure Module.Analysable (m : Module count) : Prop where
  bodies : ∀ fn, (m.function fn).hasBody = true → ∃ cfg,
    buildCfg (m.function fn).controlFlow (m.function fn).controlFlow.self
      defaultForwardCfgBuild = .ok cfg
  values : ∀ nodes, (.globalVariable (some nodes) ∈ m.declarations ∨
    .constant (some nodes) ∈ m.declarations) → ∀ instr ∈ nodes, m.node instr = .other

theorem CalleeOperand.targets_call (callee : CalleeOperand count) (g : Fin count) :
    (MemNode.call callee).Targets g ↔ callee.ignoreImmediateFnAddr = some g := by
  constructor
  · intro targets
    cases targets <;> rfl
  · intro found
    cases callee with
    | function fn =>
        obtain rfl := Option.some.inj found
        exact .call fn
    | fnAddr fn =>
        obtain rfl := Option.some.inj found
        exact .callFnAddr fn
    | other => cases found

theorem CalleeOperand.targets_tailCall (callee : CalleeOperand count) (g : Fin count) :
    (MemNode.tailCall callee).Targets g ↔ callee.ignoreImmediateFnAddr = some g := by
  constructor
  · intro targets
    cases targets <;> rfl
  · intro found
    cases callee with
    | function fn =>
        obtain rfl := Option.some.inj found
        exact .tailCall fn
    | fnAddr fn =>
        obtain rfl := Option.some.inj found
        exact .tailCallFnAddr fn
    | other => cases found

theorem MemNode.Targets.functional {node : MemNode count} {g h : Fin count}
    (first : node.Targets g) (second : node.Targets h) : g = h := by
  cases first with
  | call => cases second; rfl
  | callFnAddr => cases second; rfl
  | tailCall => cases second; rfl
  | tailCallFnAddr => cases second; rfl

/-- The order of the visit is the numbering of the blocks. -/
theorem newCfg_numbers {function : Function} {entry : AbsId} {analysed : AnalysedCFG}
    (built : newCfg function entry defaultForwardCfgBuild = .ok analysed) :
    analysed.rpo.Numbers analysed.cfg ∧ analysed.cfg.entry = some entry := by
  unfold newCfg at built
  obtain ⟨cfg, builtCfg, rest⟩ := bind_eq_ok.mp built
  obtain ⟨same, kept, rest⟩ := bind_eq_ok.mp rest
  obtain rfl : cfg = same := Except.ok.inj kept
  obtain ⟨rpo, numbered, rest⟩ := bind_eq_ok.mp rest
  obtain ⟨tree, -, rest⟩ := bind_eq_ok.mp rest
  obtain rfl := pure_eq_ok.mp rest
  obtain ⟨wellFormed, reachable⟩ := buildCfg_spec builtCfg
  obtain ⟨rpo', numbered', numbers⟩ := computeRpo_numbers wellFormed reachable
  obtain rfl := Except.ok.inj (numbered.symm.trans numbered')
  refine ⟨numbers, ?_⟩
  unfold buildCfg at builtCfg
  obtain ⟨state, -, rest⟩ := bind_eq_ok.mp builtCfg
  obtain ⟨_, -, rest⟩ := bind_eq_ok.mp rest
  obtain rfl := pure_eq_ok.mp rest
  rfl

/-- The nodes that are visited are those of the blocks. -/
theorem FunctionNode.contains_iff_visited {fn : FunctionNode} (body : fn.hasBody = true)
    {analysed : AnalysedCFG}
    (built : newCfg fn.controlFlow fn.controlFlow.self defaultForwardCfgBuild = .ok analysed)
    (instr : InstrId) : fn.Contains instr ↔ instr ∈ fn.visited analysed := by
  have listed := (newCfg_numbers built).1.listed
  unfold FunctionNode.Contains FunctionNode.visited
  rw [List.mem_flatMap]
  constructor
  · rintro ⟨-, analysed', built', block, inside, member⟩
    obtain rfl := Except.ok.inj (built.symm.trans built')
    exact ⟨some block, (listed _).mpr inside, member⟩
  · rintro ⟨block, inside, member⟩
    cases block with
    | none => cases member
    | some block => exact ⟨body, analysed, built, block, (listed _).mp inside, member⟩

/-! ## Visits of a function -/

/-- The flags that the search for components starts with. -/
def CGNode.Unmarked (n : CGNode count) : Prop :=
  n.tarjan.index = none ∧ n.tarjan.onStack = false

/-- An edge is known by its source and its call. -/
def CGEdge.Sound (m : Module count) (fn : Fin count) (e : CGEdge count) : Prop :=
  e.srcFn = fn ∧ (m.node e.instr).Targets e.dstFn

/-- What the node of a function says of calls. -/
structure CGNode.Records (m : Module count) (fn : Fin count) (n : CGNode count)
    (instrs : InstrId → Prop) : Prop where
  sound : ∀ e ∈ n.callees, e.Sound m fn
  callees : ∀ g, (∃ e ∈ n.callees, e.dstFn = g) ↔ ∃ i, instrs i ∧ (m.node i).Targets g
  isRecursive : n.isRecursive = true ↔ ∃ i, instrs i ∧ (m.node i).Targets fn

/-- A piece of the analysis, from `before` to `after`, leaves the functions in `active` to the
calls that are still running. -/
structure Explored (m : Module count) (active : Fin count → Prop)
    (before after : CallGraph count) : Prop where
  fns : ∀ fn ∈ before.fns, fn ∈ after.fns
  callees : ∀ fn ∈ before.fns, ¬ active fn →
    (after.node fn).callees = (before.node fn).callees
  isRecursive : ∀ fn ∈ before.fns, ¬ active fn →
    (after.node fn).isRecursive = (before.node fn).isRecursive
  unmarked : (∀ fn, (before.node fn).Unmarked) → ∀ fn, (after.node fn).Unmarked
  recorded : ∀ fn ∈ after.fns, fn ∉ before.fns → ¬ active fn →
    (after.node fn).Records m fn (m.function fn).Contains
  closed : ∀ fn ∈ after.fns, fn ∉ before.fns → ¬ active fn → ∀ g, m.Calls fn g → g ∈ after.fns

section Explore
variable {m : Module count} {active : Fin count → Prop}

theorem Explored.refl (graph : CallGraph count) : Explored m active graph graph where
  fns := fun _ member => member
  callees := fun _ _ _ => rfl
  isRecursive := fun _ _ _ => rfl
  unmarked := fun unmarked => unmarked
  recorded := fun _ member fresh => absurd member fresh
  closed := fun _ member fresh => absurd member fresh

theorem Explored.trans {first second third : CallGraph count}
    (one : Explored m active first second) (two : Explored m active second third) :
    Explored m active first third where
  fns := fun fn member => two.fns fn (one.fns fn member)
  callees := fun fn member idle =>
    (two.callees fn (one.fns fn member) idle).trans (one.callees fn member idle)
  isRecursive := fun fn member idle =>
    (two.isRecursive fn (one.fns fn member) idle).trans (one.isRecursive fn member idle)
  unmarked := fun unmarked => two.unmarked (one.unmarked unmarked)
  recorded := by
    intro fn member fresh idle
    by_cases earlier : fn ∈ second.fns
    · have records := one.recorded fn earlier fresh idle
      have callees := two.callees fn earlier idle
      exact
        { sound := fun e listed => records.sound e (callees ▸ listed)
          callees := fun g => callees ▸ records.callees g
          isRecursive := by
            rw [two.isRecursive fn earlier idle]
            exact records.isRecursive }
    · exact two.recorded fn member earlier idle
  closed := by
    intro fn member fresh idle g call
    by_cases earlier : fn ∈ second.fns
    · exact two.fns g (one.closed fn earlier fresh idle g call)
    · exact two.closed fn member earlier idle g call

theorem Explored.mono {wider : Fin count → Prop} {before after : CallGraph count}
    (explored : Explored m active before after) (weaker : ∀ fn, active fn → wider fn) :
    Explored m wider before after where
  fns := explored.fns
  callees := fun fn member idle => explored.callees fn member fun isActive =>
    idle (weaker fn isActive)
  isRecursive := fun fn member idle => explored.isRecursive fn member fun isActive =>
    idle (weaker fn isActive)
  unmarked := explored.unmarked
  recorded := fun fn member fresh idle => explored.recorded fn member fresh fun isActive =>
    idle (weaker fn isActive)
  closed := fun fn member fresh idle => explored.closed fn member fresh fun isActive =>
    idle (weaker fn isActive)

/-- A write that concerns neither the edges of idle functions nor their flags. -/
theorem Explored.update (graph : CallGraph count) (fn : Fin count)
    (write : CGNode count → CGNode count) (marks : ∀ n, (write n).tarjan = n.tarjan)
    (kept : ¬ active fn → ∀ n, (write n).callees = n.callees ∧
      (write n).isRecursive = n.isRecursive) :
    Explored m active graph (graph.update fn write) where
  fns := fun _ member => member
  callees := by
    intro f _ idle
    by_cases same : f = fn
    · obtain rfl := same
      rw [CallGraph.update_same]
      exact (kept idle _).1
    · rw [graph.update_other _ same]
  isRecursive := by
    intro f _ idle
    by_cases same : f = fn
    · obtain rfl := same
      rw [CallGraph.update_same]
      exact (kept idle _).2
    · rw [graph.update_other _ same]
  unmarked := by
    intro unmarked f
    by_cases same : f = fn
    · obtain rfl := same
      rw [CallGraph.update_same]
      unfold CGNode.Unmarked
      rw [marks]
      exact unmarked f
    · rw [graph.update_other _ same]
      exact unmarked f
  recorded := fun _ member fresh => absurd member fresh
  closed := fun _ member fresh => absurd member fresh

/-- What a call of `analyze_fn` guarantees if it returns. -/
def AnalyzeSpec (m : Module count)
    (analyze : Fin count → CallGraph count → Except CfgError (CallGraph count)) : Prop :=
  ∀ fn before after, analyze fn before = .ok after →
    fn ∈ after.fns ∧ Explored m (fun _ => False) before after

theorem mem_insertEdge {edges : List (CGEdge count)} {edge : CGEdge count} {fn : Fin count}
    (sound : ∀ e ∈ edges, e.Sound m fn) (soundEdge : edge.Sound m fn) :
    ∀ e, e ∈ insertEdge edges edge ↔ e ∈ edges ∨ e = edge := by
  intro e
  unfold insertEdge
  split_ifs with known
  · obtain ⟨other, member, same⟩ := List.any_eq_true.mp known
    simp only [compareCgedge, decide_eq_true_eq] at same
    -- the same call has the same callee
    have equal : edge = other := by
      have target := (sound other member).2
      rw [← same.2] at target
      have callee := soundEdge.2.functional target
      cases edge
      cases other
      simp_all
    constructor
    · exact Or.inl
    · rintro (old | new)
      · exact old
      · exact new ▸ equal ▸ member
  · rw [List.mem_append, List.mem_singleton]

/-- The visit of the body of `root` after the nodes `done`; it began in `before`. -/
structure Visiting (m : Module count) (root : Fin count) (before graph : CallGraph count)
    (done : List InstrId) : Prop where
  explored : Explored m (· = root) before graph
  records : (graph.node root).Records m root (· ∈ done)
  callees : ∀ i ∈ done, ∀ g, (m.node i).Targets g → g ∈ graph.fns

variable {analyze : Fin count → CallGraph count → Except CfgError (CallGraph count)}
  {root : Fin count} {before graph after : CallGraph count} {done : List InstrId}

/-- A call site. -/
theorem visitCallsite_spec (spec : AnalyzeSpec m analyze) (rootIn : root ∈ before.fns)
    (visiting : Visiting m root before graph done) {callee : Fin count} {instr : InstrId}
    (targets : ∀ g, (m.node instr).Targets g ↔ callee = g)
    (ran : visitCallsite analyze root callee instr graph = .ok after) :
    Visiting m root before after (done ++ [instr]) := by
  unfold visitCallsite at ran
  obtain ⟨middle, analysed, rest⟩ := bind_eq_ok.mp ran
  obtain ⟨calleeIn, explored⟩ := spec callee graph middle analysed
  have rootGraph := visiting.explored.fns root rootIn
  have sameCallees := explored.callees root rootGraph not_false
  have sameFlag := explored.isRecursive root rootGraph not_false
  -- the node of the caller after the edge and the flag
  let edge : CGEdge count := ⟨root, callee, instr⟩
  have soundEdge : edge.Sound m root := ⟨rfl, (targets callee).mpr rfl⟩
  have soundOld : ∀ e ∈ (middle.node root).callees, e.Sound m root := fun e member =>
    visiting.records.sound e (sameCallees ▸ member)
  obtain ⟨final, finalFns, finalEdges, finalFlag, finalExplored, rfl⟩ :
      ∃ final : CallGraph count, final.fns = middle.fns ∧
        (final.node root).callees = insertEdge (middle.node root).callees edge ∧
        (final.node root).isRecursive =
          ((middle.node root).isRecursive || decide (callee = root)) ∧
        Explored m (· = root) middle final ∧ final = after := by
    refine ⟨after, ?_⟩
    have writes := pure_eq_ok.mp rest
    subst writes
    refine ⟨?_, ?_, ?_, ?_, rfl⟩
    · split_ifs <;> rfl
    · by_cases self : callee = root
      · simp [self, edge]
      · simp [self, Ne.symm self, edge]
    · by_cases self : callee = root
      · simp [self]
      · simp [self, Ne.symm self]
    · have first : Explored m (· = root) middle
          (if callee = root then middle.update root ({ · with isRecursive := true })
            else middle) := by
        split_ifs
        · exact Explored.update _ _ _ (fun _ => rfl) fun idle => absurd rfl idle
        · exact Explored.refl _
      have second := first.trans (Explored.update _ root
        (fun n => { n with callees := insertEdge n.callees edge }) (fun _ => rfl)
        fun idle => absurd rfl idle)
      exact second.trans (Explored.update _ _ _ (fun _ => rfl) fun _ _ => ⟨rfl, rfl⟩)
  have whole : Explored m (· = root) graph final :=
    (explored.mono fun _ => False.elim).trans finalExplored
  exact
    { explored := visiting.explored.trans whole
      records :=
        { sound := by
            intro e member
            rw [finalEdges, mem_insertEdge soundOld soundEdge] at member
            cases member with
            | inl old => exact soundOld e old
            | inr new => exact new ▸ soundEdge
          callees := by
            intro g
            rw [finalEdges]
            simp only [mem_insertEdge soundOld soundEdge, List.mem_append,
              List.mem_singleton, or_and_right, exists_or, exists_eq_left]
            rw [sameCallees, visiting.records.callees g, targets g]
          isRecursive := by
            rw [finalFlag, sameFlag, Bool.or_eq_true, visiting.records.isRecursive,
              decide_eq_true_eq]
            simp only [List.mem_append, List.mem_singleton, or_and_right, exists_or,
              exists_eq_left]
            rw [targets root] }
      callees := by
        intro i member g target
        rw [finalFns]
        cases List.mem_append.mp member with
        | inl old => exact explored.fns g (visiting.callees i old g target)
        | inr new =>
            rw [List.mem_singleton.mp new, targets] at target
            exact target ▸ calleeIn }

/-- A node that is no call of a function. -/
theorem Visiting.pass (visiting : Visiting m root before graph done) {instr : InstrId}
    (noTarget : ∀ g, ¬ (m.node instr).Targets g) (write : CGNode count → CGNode count)
    (kept : ∀ n, (write n).callees = n.callees ∧ (write n).isRecursive = n.isRecursive ∧
      (write n).tarjan = n.tarjan) :
    Visiting m root before (graph.update root write) (done ++ [instr]) := by
  have same : ∀ g, (∃ i, i ∈ done ++ [instr] ∧ (m.node i).Targets g) ↔
      ∃ i, i ∈ done ∧ (m.node i).Targets g := by
    intro g
    simp only [List.mem_append, List.mem_singleton, or_and_right, exists_or, exists_eq_left,
      noTarget g, or_false]
  exact
    { explored := visiting.explored.trans
        (Explored.update _ _ _ (fun n => (kept n).2.2) fun idle => absurd rfl idle)
      records :=
        { sound := fun e member => visiting.records.sound e (by
            rwa [CallGraph.update_same, (kept _).1] at member)
          callees := fun g => by
            rw [CallGraph.update_same, (kept _).1, same]
            exact visiting.records.callees g
          isRecursive := by
            rw [CallGraph.update_same, (kept _).2.1, same]
            exact visiting.records.isRecursive }
      callees := by
        intro i member g target
        cases List.mem_append.mp member with
        | inl old => exact visiting.callees i old g target
        | inr new => exact absurd (List.mem_singleton.mp new ▸ target) (noTarget g) }

theorem visitCall_spec (spec : AnalyzeSpec m analyze) (rootIn : root ∈ before.fns)
    (visiting : Visiting m root before graph done) {callee : CalleeOperand count}
    {instr : InstrId}
    (targets : ∀ g, (m.node instr).Targets g ↔ callee.ignoreImmediateFnAddr = some g)
    (ran : visitCall analyze root callee instr graph = .ok after) :
    Visiting m root before after (done ++ [instr]) := by
  unfold visitCall at ran
  cases found : callee.ignoreImmediateFnAddr with
  | some fn =>
      rw [found] at ran
      apply visitCallsite_spec spec rootIn visiting _ ran
      intro g
      rw [targets g, found, Option.some.injEq]
  | none =>
      rw [found] at ran
      obtain rfl := Except.ok.inj ran
      apply visiting.pass
      · intro g target
        rw [targets g, found] at target
        cases target
      · exact fun n => ⟨rfl, rfl, rfl⟩

theorem searchForCallsites_spec (spec : AnalyzeSpec m analyze) (rootIn : root ∈ before.fns)
    (visiting : Visiting m root before graph done) {instr : InstrId}
    (ran : searchForCallsites m analyze (some root) graph instr = .ok after) :
    Visiting m root before after (done ++ [instr]) := by
  unfold searchForCallsites at ran
  cases node : m.node instr with
  | call callee =>
      rw [node] at ran
      apply visitCall_spec spec rootIn visiting _ ran
      intro g
      rw [node]
      exact callee.targets_call g
  | tailCall callee =>
      rw [node] at ran
      apply visitCall_spec spec rootIn visiting _ ran
      intro g
      rw [node]
      exact callee.targets_tailCall g
  | other =>
      rw [node] at ran
      obtain rfl := Except.ok.inj ran
      have unchanged : graph.update root id = graph := by
        unfold CallGraph.update
        simp
      rw [← unchanged]
      apply visiting.pass
      · intro g target
        rw [node] at target
        cases target
      · exact fun n => ⟨rfl, rfl, rfl⟩

theorem searchAll_spec (spec : AnalyzeSpec m analyze) (rootIn : root ∈ before.fns)
    (nodes : List InstrId) : ∀ graph done, Visiting m root before graph done →
      ∀ after, nodes.foldlM (searchForCallsites m analyze (some root)) graph = .ok after →
        Visiting m root before after (done ++ nodes) := by
  induction nodes with
  | nil =>
      intro graph done visiting after ran
      obtain rfl := pure_eq_ok.mp ran
      simpa using visiting
  | cons instr nodes ih =>
      intro graph done visiting after ran
      rw [List.foldlM_cons] at ran
      obtain ⟨middle, first, rest⟩ := bind_eq_ok.mp ran
      have next := ih middle (done ++ [instr])
        (searchForCallsites_spec spec rootIn visiting first) after rest
      simpa using next

/-- A function that is new in the graph. -/
theorem insert_visiting (m : Module count) {fn : Fin count} (graph : CallGraph count) :
    Visiting m fn (graph.insert fn) (graph.insert fn) [] where
  explored := Explored.refl _
  records :=
    { sound := by simp [CallGraph.insert, CGNode.new]
      callees := by simp [CallGraph.insert, CGNode.new]
      isRecursive := by simp [CallGraph.insert, CGNode.new] }
  callees := nofun

/-- The visit of a new function is complete. -/
theorem Visiting.finish {fn : Fin count} (fresh : fn ∉ graph.fns)
    (visiting : Visiting m fn (graph.insert fn) after done)
    (all : ∀ i, (m.function fn).Contains i ↔ i ∈ done) :
    fn ∈ after.fns ∧ Explored m (fun _ => False) graph after := by
  have old : ∀ f ∈ graph.fns, f ≠ fn ∧ f ∈ (graph.insert fn).fns := by
    intro f member
    exact ⟨fun same => fresh (same ▸ member), List.mem_append_left _ member⟩
  have unchanged : ∀ f, f ≠ fn → (graph.insert fn).node f = graph.node f := by
    intro f different
    simp [CallGraph.insert, different]
  have inside : fn ∈ (graph.insert fn).fns :=
    List.mem_append_right _ (List.mem_singleton.mpr rfl)
  have notNew : ∀ f, f ∉ graph.fns → f ≠ fn → f ∉ (graph.insert fn).fns := by
    intro f freshF different member
    cases List.mem_append.mp member with
    | inl earlier => exact freshF earlier
    | inr isFn => exact different (List.mem_singleton.mp isFn)
  have explored := visiting.explored
  refine ⟨explored.fns fn inside, ?_⟩
  exact
    { fns := fun f member => explored.fns f (old f member).2
      callees := fun f member _ => by
        rw [explored.callees f (old f member).2 (old f member).1, unchanged f (old f member).1]
      isRecursive := fun f member _ => by
        rw [explored.isRecursive f (old f member).2 (old f member).1,
          unchanged f (old f member).1]
      unmarked := by
        intro unmarked
        apply explored.unmarked
        intro f
        by_cases same : f = fn
        · simp [CallGraph.insert, same, CGNode.new, CGNode.Unmarked]
        · rw [unchanged f same]
          exact unmarked f
      recorded := by
        intro f member freshF _
        by_cases same : f = fn
        · obtain rfl := same
          have contains : (m.function f).Contains = (· ∈ done) := by
            funext i
            exact propext (all i)
          rw [contains]
          exact visiting.records
        · exact explored.recorded f member (notNew f freshF same) same
      closed := by
        intro f member freshF _ g call
        by_cases same : f = fn
        · obtain rfl := same
          obtain ⟨i, contained, target⟩ := call
          exact visiting.callees i ((all i).mp contained) g target
        · exact explored.closed f member (notNew f freshF same) same g call }

theorem analyzeFn_spec (m : Module count) (fuel : Nat) : AnalyzeSpec m (analyzeFn m fuel) := by
  induction fuel with
  | zero => exact fun _ _ _ ran => nomatch ran
  | succ fuel ih =>
      intro fn graph after ran
      rw [analyzeFn] at ran
      split_ifs at ran with known body
      · obtain rfl := Except.ok.inj ran
        exact ⟨known, Explored.refl _⟩
      · unfold visitFunctionRpo at ran
        obtain ⟨analysed, built, ran⟩ := bind_eq_ok.mp ran
        split_ifs at ran
        have visiting := searchAll_spec ih (List.mem_append_right _ (List.mem_singleton.mpr rfl))
          _ _ _ (insert_visiting m graph) after ran
        apply visiting.finish known
        intro i
        rw [List.nil_append]
        exact FunctionNode.contains_iff_visited body built i
      · obtain rfl := Except.ok.inj ran
        apply (insert_visiting m graph).finish known
        intro i
        constructor
        · exact fun contained => absurd contained.1 body
        · exact nofun

end Explore

/-! ## Termination -/

/-- The functions that are not in the graph. -/
def CallGraph.remaining (graph : CallGraph count) : Nat :=
  (List.finRange count).countP fun fn => fn ∉ graph.fns

section Total
variable {m : Module count}

theorem remaining_mono {before after : CallGraph count}
    (grows : ∀ fn ∈ before.fns, fn ∈ after.fns) : after.remaining ≤ before.remaining := by
  apply List.countP_mono_left
  intro fn _ fresh
  rw [decide_eq_true_eq] at fresh ⊢
  exact fun member => fresh (grows fn member)

theorem remaining_insert {graph : CallGraph count} {fn : Fin count} (fresh : fn ∉ graph.fns) :
    (graph.insert fn).remaining < graph.remaining := by
  apply countP_lt ?_ (List.mem_finRange fn)
  · simp [CallGraph.insert]
  · simpa using fresh
  · intro f _ still
    rw [decide_eq_true_eq] at still ⊢
    exact fun member => still (List.mem_append_left _ member)

theorem remaining_le (graph : CallGraph count) : graph.remaining ≤ count := by
  have bounded := List.countP_le_length (l := List.finRange count)
    (p := fun fn => decide (fn ∉ graph.fns))
  rwa [List.length_finRange] at bounded

theorem searchForCallsites_total {fuel : Nat} {root : Fin count} {graph : CallGraph count}
    (total : ∀ fn graph, graph.remaining < fuel → ∃ after, analyzeFn m fuel fn graph = .ok after)
    (enough : graph.remaining < fuel) (instr : InstrId) :
    ∃ after, searchForCallsites m (analyzeFn m fuel) (some root) graph instr = .ok after ∧
      after.remaining < fuel := by
  have call : ∀ callee, ∃ after, visitCall (analyzeFn m fuel) root callee instr graph = .ok after ∧
      after.remaining < fuel := by
    intro callee
    unfold visitCall
    cases callee.ignoreImmediateFnAddr with
    | none => exact ⟨_, rfl, enough⟩
    | some fn =>
        obtain ⟨middle, ran⟩ := total fn graph enough
        have grows := (analyzeFn_spec m fuel fn graph middle ran).2.fns
        refine ⟨_, by simp only [visitCallsite, ran]; rfl, ?_⟩
        have fewer := (remaining_mono grows).trans_lt enough
        by_cases self : fn = root <;> simpa [self, CallGraph.remaining] using fewer
  unfold searchForCallsites
  cases m.node instr with
  | call callee => exact call callee
  | tailCall callee => exact call callee
  | other => exact ⟨graph, rfl, enough⟩

theorem analyzeFn_total (analysable : m.Analysable) (fuel : Nat) :
    ∀ fn graph, graph.remaining < fuel → ∃ after, analyzeFn m fuel fn graph = .ok after := by
  induction fuel with
  | zero => exact fun _ _ enough => absurd enough (Nat.not_lt_zero _)
  | succ fuel ih =>
      intro fn graph enough
      rw [analyzeFn]
      split_ifs with known body
      · exact ⟨graph, rfl⟩
      · obtain ⟨cfg, built⟩ := analysable.bodies fn body
        obtain ⟨rpo, tree, analysed⟩ := newCfg_total rfl built
        obtain ⟨numbers, entry⟩ := newCfg_numbers analysed
        have first : rpo.rpo.head? = some (some (m.function fn).controlFlow.self) := by
          rw [List.head?_eq_getElem?, (numbers.indexed _ 0).mp numbers.entry, entry]
        have fewer : (graph.insert fn).remaining < fuel := by
          have := remaining_insert known
          omega
        have each : ∀ instr ∈ (m.function fn).visited ⟨cfg, rpo, tree⟩, ∀ graph : CallGraph count,
            graph.remaining < fuel → ∃ next,
              searchForCallsites m (analyzeFn m fuel) (some fn) graph instr = .ok next ∧
                next.remaining < fuel :=
          fun instr _ graph enough => searchForCallsites_total ih enough instr
        obtain ⟨after, ran, -⟩ := foldlM_succeeds
          (fun graph : CallGraph count => graph.remaining < fuel) each fewer
        refine ⟨after, ?_⟩
        unfold visitFunctionRpo
        rw [analysed]
        change (if rpo.rpo.head? ≠ _ then _ else _) = _
        rw [if_neg (not_not.mpr first)]
        exact ran
      · exact ⟨_, rfl⟩

end Total

/-! ## Declarations -/

section Declarations
variable {m : Module count} {graph after : CallGraph count}

theorem analyzeValue_spec {value : Option (List InstrId)}
    (ran : analyzeValue m value graph = .ok after) : after = graph := by
  unfold analyzeValue at ran
  cases value with
  | none => exact (Except.ok.inj ran).symm
  | some nodes =>
      apply foldlM_keeps (· = graph) _ rfl ran
      intro instr _ s s' same step
      unfold searchForCallsites at step
      cases node : m.node instr with
      | other =>
          rw [node] at step
          exact (Except.ok.inj step).symm.trans same
      | call callee =>
          rw [node] at step
          cases step
      | tailCall callee =>
          rw [node] at step
          cases step

theorem analyzeDeclaration_spec {decl : Declaration count}
    (ran : analyzeDeclaration m graph decl = .ok after) :
    Explored m (fun _ => False) graph after ∧
      ∀ fn, decl = .function fn → fn ∈ after.fns := by
  cases decl with
  | function fn =>
      obtain ⟨middle, analysed, rest⟩ := bind_eq_ok.mp ran
      have spec := analyzeFn_spec m _ fn graph middle analysed
      split_ifs at rest
      · obtain rfl := pure_eq_ok.mp rest
        refine ⟨spec.2.trans (Explored.update _ _ _ (fun _ => rfl) fun _ _ => ⟨rfl, rfl⟩), ?_⟩
        rintro g same
        cases same
        exact spec.1
      · obtain rfl := pure_eq_ok.mp rest
        refine ⟨spec.2, ?_⟩
        rintro g same
        cases same
        exact spec.1
  | globalVariable init =>
      obtain rfl := analyzeValue_spec ran
      exact ⟨Explored.refl _, nofun⟩
  | constant value =>
      obtain rfl := analyzeValue_spec ran
      exact ⟨Explored.refl _, nofun⟩
  | other =>
      obtain rfl := Except.ok.inj ran
      exact ⟨Explored.refl _, nofun⟩

theorem analyzeDeclaration_total (analysable : m.Analysable) {decl : Declaration count}
    (declared : decl ∈ m.declarations) (graph : CallGraph count) :
    ∃ after, analyzeDeclaration m graph decl = .ok after := by
  have total : ∀ fn, ∃ after, analyzeFn m (count + 1) fn graph = .ok after := fun fn =>
    analyzeFn_total analysable _ fn graph (Nat.lt_succ_of_le (remaining_le graph))
  have values : ∀ value : Option (List InstrId),
      (∀ nodes, value = some nodes → ∀ instr ∈ nodes, m.node instr = .other) →
      ∃ after, analyzeValue m value graph = .ok after := by
    intro value plain
    cases value with
    | none => exact ⟨graph, rfl⟩
    | some nodes =>
        have each : ∀ instr ∈ nodes, ∀ s : CallGraph count, True → ∃ s',
            searchForCallsites m (analyzeFn m (count + 1)) none s instr = .ok s' ∧ True :=
          fun instr member s _ => ⟨s, by
            simp only [searchForCallsites, plain nodes rfl instr member], trivial⟩
        obtain ⟨after, ran, -⟩ := foldlM_succeeds (fun _ => True) each
          (s := graph) trivial
        exact ⟨after, ran⟩
  cases decl with
  | function fn =>
      obtain ⟨middle, ran⟩ := total fn
      simp only [analyzeDeclaration, ran]
      by_cases captured : (m.function fn).fnAddrUses.any Use.captures = true
      · exact ⟨_, if_pos captured⟩
      · exact ⟨_, if_neg captured⟩
  | globalVariable init =>
      apply values init
      rintro nodes rfl
      exact analysable.values nodes (Or.inl declared)
  | constant value =>
      apply values value
      rintro nodes rfl
      exact analysable.values nodes (Or.inr declared)
  | other => exact ⟨graph, rfl⟩

/-- The loop over the declarations. -/
theorem analyzeDeclarations_spec {declarations : List (Declaration count)}
    (ran : declarations.foldlM (analyzeDeclaration m) graph = .ok after) :
    Explored m (fun _ => False) graph after ∧
      ∀ fn, .function fn ∈ declarations → fn ∈ after.fns := by
  have whole := foldlM_each (Explored m fun _ => False)
    (fun (decl : Declaration count) s => ∀ fn, decl = .function fn → fn ∈ s.fns)
    Explored.refl Explored.trans
    (fun _ _ _ known later fn same => later.fns fn (known fn same))
    (fun decl _ s s' step => analyzeDeclaration_spec step) ran
  exact ⟨whole.1, fun fn member => whole.2 _ member fn rfl⟩

end Declarations

/-! ## Cycles of calls -/

/-- A function is on a cycle if it calls itself, or if it and another function lead to
each other. -/
theorem onCycle_iff {V : Type} (R : V → V → Prop) (v : V) :
    Relation.TransGen R v v ↔ R v v ∨ ∃ u, u ≠ v ∧ Mutual R v u := by
  constructor
  · intro cycle
    obtain ⟨u, first, rest⟩ := Relation.TransGen.head'_iff.mp cycle
    by_cases same : u = v
    · exact Or.inl (same ▸ first)
    · exact Or.inr ⟨u, same, Relation.ReflTransGen.single first, rest⟩
  · rintro (self | ⟨u, different, there, back⟩)
    · exact Relation.TransGen.single self
    · obtain same | there := Relation.reflTransGen_iff_eq_or_transGen.mp there
      · exact absurd same different
      · exact there.trans_left back

/-- Relations that agree on a set that they do not leave have the same paths from there. -/
theorem path_congr {V : Type} {R S : V → V → Prop} {inside : V → Prop}
    (closed : ∀ u, inside u → ∀ v, S u v → inside v)
    (same : ∀ u, inside u → ∀ v, R u v ↔ S u v) {u v : V} (start : inside u) :
    Path R u v ↔ Path S u v := by
  have closedR : ∀ u, inside u → ∀ v, R u v → inside v := fun u within v step =>
    closed u within v ((same u within v).mp step)
  constructor
  · intro path
    induction path with
    | refl => exact Relation.ReflTransGen.refl
    | tail before step ih =>
        exact ih.tail ((same _ (path_closed closedR before start) _).mp step)
  · intro path
    induction path with
    | refl => exact Relation.ReflTransGen.refl
    | tail before step ih =>
        exact ih.tail ((same _ (path_closed closed before start) _).mpr step)

/-- The flags after the search for components. -/
theorem flags_exact {m : Module count} (order : DictOrder count) {graph : CallGraph count}
    (explored : Explored m (fun _ => False) .empty graph) :
    ∃ after, tarjan order graph = .ok after ∧ after.fns = graph.fns ∧
      ∀ fn ∈ graph.fns,
        ((after.node fn).isRecursive = true ↔ Relation.TransGen m.Calls fn fn) := by
  have unmarked : ∀ fn, (graph.node fn).Unmarked := explored.unmarked fun _ => ⟨rfl, rfl⟩
  have recorded : ∀ fn ∈ graph.fns,
      (graph.node fn).Records m fn (m.function fn).Contains := fun fn member =>
    explored.recorded fn member List.not_mem_nil not_false
  have closed : ∀ f, f ∈ graph.fns → ∀ g, m.Calls f g → g ∈ graph.fns := fun f member =>
    explored.closed f member List.not_mem_nil not_false
  have same : ∀ f, f ∈ graph.fns → ∀ g, graph.Leads f g ↔ m.Calls f g := fun f member =>
    (recorded f member).callees
  obtain ⟨after, found, sameFns, flags⟩ := tarjan_spec order graph unmarked
  refine ⟨after, found, sameFns, ?_⟩
  intro fn member
  rw [flags fn member, onCycle_iff]
  have self : (graph.node fn).isRecursive = true ↔ m.Calls fn fn :=
    (recorded fn member).isRecursive
  have mutual_iff : ∀ u, Mutual graph.Leads fn u ↔ Mutual m.Calls fn u := by
    intro u
    have there := path_congr closed same (v := u) member
    constructor
    · intro both
      have path := there.mp both.1
      exact ⟨path, (path_congr closed same (path_closed closed path member)).mp both.2⟩
    · intro both
      have inside := path_closed closed both.1 member
      exact ⟨there.mpr both.1, (path_congr closed same inside).mpr both.2⟩
  simp only [self, mutual_iff]

/-- `shd_new_callgraph` returns on a module that the compiler can analyse; a graph that it
returns has a node for each declared function, and `is_recursive` is set in the nodes of
exactly those functions that lie on a cycle of calls. -/
theorem isRecursive_exact (m : Module count) (order : DictOrder count) :
    (m.Analysable → ∃ graph, newCallgraph m order = .ok graph) ∧
      ∀ graph, newCallgraph m order = .ok graph →
        (∀ fn, .function fn ∈ m.declarations → fn ∈ graph.fns) ∧
        ∀ fn ∈ graph.fns,
          ((graph.node fn).isRecursive = true ↔ Relation.TransGen m.Calls fn fn) := by
  constructor
  · intro analysable
    obtain ⟨graph, ran, -⟩ := foldlM_succeeds (fun _ => True)
      (fun decl declared graph _ => by
        obtain ⟨next, step⟩ := analyzeDeclaration_total analysable declared graph
        exact ⟨next, step, trivial⟩)
      (s := CallGraph.empty) trivial
    obtain ⟨after, found, -⟩ := flags_exact order (analyzeDeclarations_spec ran).1
    exact ⟨after, bind_eq_ok.mpr ⟨graph, ran, found⟩⟩
  · intro after ran
    obtain ⟨graph, built, found⟩ := bind_eq_ok.mp ran
    obtain ⟨explored, declared⟩ := analyzeDeclarations_spec built
    obtain ⟨after', found', sameFns, flags⟩ := flags_exact order explored
    obtain rfl := Except.ok.inj (found.symm.trans found')
    rw [sameFns]
    exact ⟨declared, flags⟩

/-- No function that is called from `fn` on is flagged. -/
def Unflagged (m : Module count) (graph : CallGraph count) (fn : Fin count) : Prop :=
  ∀ g, Relation.ReflTransGen m.Calls fn g → (graph.node g).isRecursive = false

/-- The calls below a function are bounded in depth if and only if none of them is flagged, and then
a chain of calls enters no function twice. -/
theorem callDepth_bounded_iff (m : Module count) (order : DictOrder count) {after : CallGraph count}
    (ran : newCallgraph m order = .ok after) {fn : Fin count} (listed : fn ∈ after.fns) :
    ((∃ bound, ∀ chain, List.IsChain m.Calls (fn :: chain) → chain.length ≤ bound) ↔
      Unflagged m after fn) ∧
    (Unflagged m after fn → ∀ chain, List.IsChain m.Calls (fn :: chain) →
      (fn :: chain).Nodup ∧ chain.length < count) := by
  obtain ⟨graph, built, found⟩ := bind_eq_ok.mp ran
  have explored := (analyzeDeclarations_spec built).1
  obtain ⟨after', found', sameFns, flags⟩ := flags_exact order explored
  obtain rfl := Except.ok.inj (found.symm.trans found')
  rw [sameFns] at listed
  have flagged : ∀ g, Relation.ReflTransGen m.Calls fn g →
      ((after.node g).isRecursive = true ↔ Relation.TransGen m.Calls g g) := fun g leads =>
    flags g (path_closed (fun f member => explored.closed f member List.not_mem_nil not_false) leads
      listed)
  have short : Unflagged m after fn → ∀ chain, List.IsChain m.Calls (fn :: chain) →
      (fn :: chain).Nodup ∧ chain.length < count := by
    intro clear chain calls
    have distinct := Search.nodup_of_acyclic (fun g leads back => by
      have set := (flagged g leads).mpr back
      rw [clear g leads] at set
      cases set) calls
    have fits := distinct.length_le_card
    rw [Fintype.card_fin] at fits
    exact ⟨distinct, fits⟩
  refine ⟨⟨fun bounded g leads => ?_, fun clear => ⟨count, fun chain calls =>
    (short clear chain calls).2.le⟩⟩, short⟩
  obtain ⟨bound, bounded⟩ := bounded
  by_contra set
  obtain ⟨chain, calls, counted⟩ := Search.walk_of_cycle
    ((flagged g leads).mp (by simpa using set)) (bound + 1) leads
  have small := bounded chain calls
  omega

local instance threeNeZero : NeZero 3 := ⟨by decide⟩

/-- A function that calls another one, which calls it back through a `FnAddr`, and a third
one that calls the first. -/
def pingPong : Module 3 where
  function := fun fn =>
    { controlFlow := ⟨0, [(0, ⟨true, [], some .fnRet⟩)]⟩
      memChain := fun _ => [fn.val]
      fnAddrUses := [] }
  node := fun instr =>
    match instr with
    | 0 => .call (.function 1)
    | 1 => .tailCall (.fnAddr 0)
    | _ => .call (.function 0)
  declarations := [.function 2]

theorem pingPong_unbounded : ∃ after,
    newCallgraph pingPong ⟨id, id, fun _ => .refl _, fun _ => .refl _⟩ = .ok after ∧
      ¬ ∃ bound, ∀ chain, List.IsChain pingPong.Calls (0 :: chain) → chain.length ≤ bound := by
  have shape : (newCallgraph pingPong ⟨id, id, fun _ => .refl _, fun _ => .refl _⟩).toOption.any
      (fun after => decide (0 ∈ after.fns ∧ (after.node 0).isRecursive = true)) = true := by
    decide +kernel
  cases ran : newCallgraph pingPong ⟨id, id, fun _ => .refl _, fun _ => .refl _⟩ with
  | error e =>
      rw [ran] at shape
      cases shape
  | ok after =>
      rw [ran] at shape
      have flagged := of_decide_eq_true shape
      refine ⟨after, rfl, fun bounded => ?_⟩
      have clear := (callDepth_bounded_iff _ _ ran flagged.1).1.mp bounded 0 .refl
      rw [flagged.2] at clear
      cases clear

end Shady.Callgraph
