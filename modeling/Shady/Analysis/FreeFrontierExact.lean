import Shady.Analysis.FreeFrontier
import Shady.Analysis.CfgTargets

/-!
# Free frontiers are exact where they end

The free values of a block are those that the code reached from it uses and that are not
defined on the way. A frontier that is computed holds just these, but for the frontier of a
block that is not dominated the computation starts anew and knows nothing of those that are
being computed: it ends where no such block leads back to itself.
-/

set_option autoImplicit false

namespace Shady
open Dominance Fallible

/-! ## The code that a block leads to -/

def TerminatorNode.mem : TerminatorNode → IrNode
  | .ifInstr mem _ _ _ _ => mem
  | .matchInstr mem _ _ _ _ _ => mem
  | .loopInstr mem _ _ _ => mem
  | .control mem _ _ => mem
  | .tailCall mem _ _ => mem
  | .jump j => j.mem
  | .branch mem _ _ _ => mem
  | .brSwitch mem _ _ _ _ => mem
  | .join mem _ _ => mem
  | .mergeContinue mem _ => mem
  | .mergeBreak mem _ => mem
  | .mergeSelection mem _ => mem
  | .fnRet mem _ => mem
  | .unreachable mem => mem

/-- `shd_cfg_is_dominated` finds the block `b` above `p`. -/
def AnalysedCFG.Below (analysed : AnalysedCFG) (b : AbsId) (p : CFNodeId) : Prop :=
  isDominated analysed.cfg analysed.tree p (some b) = .ok true

namespace FunctionNode
variable (f : FunctionNode) (analysed : AnalysedCFG)

/-- What the constructors of nodes see to: blocks are referred to where blocks belong,
parameters know their block, and terminators end the chains of their blocks. -/
structure Formed : Prop where
  targets : ∀ b abs t, f.get b = some abs → abs.body = some t →
    ∀ c ∈ t.controlFlow.targets, ∃ block, f.get c = some block ∧ block.isFunction = false
  params : ∀ b abs, f.get b = some abs → ∀ p ∈ abs.params, ∃ id, p = .param id b
  chained : ∀ b abs t, f.get b = some abs → abs.body = some t → t.mem.root = some b
  jumps : ∀ b abs t, f.get b = some abs → abs.body = some t →
    ∀ j, .terminator j ∈ t.operands → j.mem.root = some b

/-- The terminator of the block `b` names the block `c`. -/
def Names (b c : AbsId) : Prop :=
  ∃ t, (f.get b).bind AbstractionNode.body = some t ∧ c ∈ t.controlFlow.targets

/-- What the code of the block `u` needs, if it is reached through the blocks of `path`: the
operands of its terminator, and those of what stands on the way. -/
inductive Needs (path : List AbsId) (u : AbsId) : IrNode → Prop
  | direct {t : TerminatorNode} {n : IrNode} (ends : f.InBody analysed u (.terminator t))
      (uses : n ∈ t.dependencies) : Needs path u n
  | through {n o : IrNode} {q : CFNodeId} (needed : Needs path u n)
      (placed : placement analysed (.value n) = some q) (onTheWay : q ∈ path.map some)
      (uses : o ∈ n.operands) : Needs path u o

/-- A value that is scheduled at a block that `b` does not dominate, and used by code that is
reached from `b` without the block that defines it on the way. -/
def FreeIn (b : AbsId) (v : IrNode) : Prop :=
  v.isValue = true ∧ ∃ p u path, placement analysed (.value v) = some p ∧
    ¬ analysed.Dom (some b) p ∧ Walk f.Names b u path ∧ f.Needs analysed path u v ∧
    p ∉ path.map some

/-- A way from `b` to `u` through blocks below `b`. -/
def WayBelow (b u : AbsId) (path : List AbsId) : Prop :=
  Walk f.Names b u path ∧ ∀ w ∈ path, analysed.Below b (some w)

/-- The block `c` is reached from `b` through blocks below `b`, and is not below it. -/
def Exits (b c : AbsId) : Prop :=
  ∃ u path, f.WayBelow analysed b u path ∧ f.Names u c ∧ ¬ analysed.Below b (some c)

end FunctionNode

/-! ## Bodies -/

theorem TerminatorNode.mem_dependencies (t : TerminatorNode) : t.mem ∈ t.dependencies := by
  cases t <;> exact List.mem_cons_self

theorem TerminatorNode.jump_of_mem {t j : TerminatorNode} (operand : .terminator j ∈ t.operands) :
    ∃ jump, j = .jump jump := by
  cases t <;> simp_all [TerminatorNode.operands, TerminatorNode.dependencies]
  all_goals grind

theorem TerminatorNode.value_mem_operands {t : TerminatorNode} {n : IrNode} :
    .value n ∈ t.operands ↔ n ∈ t.dependencies := by
  cases t <;> simp [TerminatorNode.operands, TerminatorNode.dependencies]

/-- The blocks that a terminator names are its operands or those of its jumps. -/
theorem TerminatorNode.mem_targets {t : TerminatorNode} {c : AbsId} :
    c ∈ t.controlFlow.targets ↔ .block c ∈ t.operands ∨
      ∃ j, .terminator j ∈ t.operands ∧ .block c ∈ j.operands := by
  cases t <;> simp [TerminatorNode.operands, TerminatorNode.dependencies, TerminatorNode.controlFlow,
    Terminator.targets, Terminator.jumps, Terminator.structuralTargets, Terminator.bodies,
    Terminator.tail?, JumpNode.toJump]
  all_goals grind

section Bodies
variable {f : FunctionNode} {analysed : AnalysedCFG} {b c : AbsId}

theorem FunctionNode.bodyOf_eq {t : TerminatorNode}
    (ends : (f.get b).bind AbstractionNode.body = some t) :
    ∃ abs, f.get b = some abs ∧ abs.body = some t :=
  Option.bind_eq_some_iff.mp ends

/-- The terminators of a body are its own and the jumps in it. -/
theorem FunctionNode.inBody_terminator {t : TerminatorNode} :
    f.InBody analysed b (.terminator t) ↔ some b ∈ analysed.cfg.contents ∧
      ∃ last, (f.get b).bind AbstractionNode.body = some last ∧
        (t = last ∨ .terminator t ∈ last.operands) := by
  constructor
  · intro body
    generalize isTerminator : BodyNode.terminator t = node at body
    induction body generalizing t with
    | block _ _ _ => cases isTerminator
    | dependency _ _ _ => cases isTerminator
    | operand _ _ _ => cases isTerminator
    | @terminator abs last inside found body =>
        obtain rfl := BodyNode.terminator.inj isTerminator
        exact ⟨inside, t, by rw [found]; exact body, Or.inl rfl⟩
    | @jump u j ends operand ih =>
        obtain rfl := BodyNode.terminator.inj isTerminator
        obtain ⟨inside, last, isLast, which⟩ := ih rfl
        refine ⟨inside, last, isLast, ?_⟩
        cases which with
        | inl same => exact Or.inr (same ▸ operand)
        | inr inner =>
            -- jumps have no terminators among their operands
            obtain ⟨jump, rfl⟩ := TerminatorNode.jump_of_mem inner
            simp [TerminatorNode.operands] at operand
  · rintro ⟨inside, last, isLast, which⟩
    obtain ⟨abs, found, body⟩ := FunctionNode.bodyOf_eq isLast
    have ends := FunctionNode.InBody.terminator inside found body
    cases which with
    | inl same => exact same ▸ ends
    | inr inner => exact ends.jump inner

theorem FunctionNode.Formed.root (formed : f.Formed) {t : TerminatorNode}
    (ends : f.InBody analysed b (.terminator t)) : t.mem.root = some b := by
  obtain ⟨-, last, isLast, which⟩ := FunctionNode.inBody_terminator.mp ends
  obtain ⟨abs, found, body⟩ := FunctionNode.bodyOf_eq isLast
  cases which with
  | inl same => exact same ▸ formed.chained b abs last found body
  | inr inner => exact formed.jumps b abs last found body t inner

/-- A block that is an operand of a terminator is named by it. -/
theorem FunctionNode.InBody.named {t : TerminatorNode}
    (ends : f.InBody analysed b (.terminator t)) (operand : .block c ∈ t.operands) : f.Names b c := by
  obtain ⟨-, last, isLast, which⟩ := FunctionNode.inBody_terminator.mp ends
  refine ⟨last, isLast, TerminatorNode.mem_targets.mpr ?_⟩
  cases which with
  | inl same => exact Or.inl (same ▸ operand)
  | inr inner => exact Or.inr ⟨t, inner, operand⟩

end Bodies

/-- What the search for free values relies on. -/
structure Searched (f : FunctionNode) (analysed : AnalysedCFG) : Prop where
  formed : f.Formed
  well : f.WellScoped analysed
  sound : analysed.Sound
  climbed : analysed.Climbed
  edges : ∀ b c, some b ∈ analysed.cfg.contents → f.Names b c →
    analysed.cfg.Edge (some b) (some c)

theorem FunctionNode.controlFlow_get (f : FunctionNode) (b : AbsId) :
    f.controlFlow.get b = (f.get b).map AbstractionNode.controlFlow := by
  unfold FunctionNode.controlFlow Function.get FunctionNode.get
  induction f.abstractions with
  | nil => rfl
  | cons entry rest ih =>
      rw [List.map_cons, List.lookup_cons, List.lookup_cons, ih]
      cases b == entry.1 <;> rfl

theorem newCfg_searched {f : FunctionNode} {entry : AbsId} {config : CFGBuildConfig}
    {analysed : AnalysedCFG} (forward : config.flipped = false)
    (tails : config.includeStructuredTails = true) (whole : config.lt = none)
    (built : newCfg f.controlFlow entry config = .ok analysed) (formed : f.Formed)
    (well : f.WellScoped analysed) : Searched f analysed where
  formed := formed
  well := well
  sound := newCfg_sound forward built
  climbed := (newCfg_climbed forward built).1
  edges := by
    rintro b c inside ⟨t, ends, named⟩
    obtain ⟨abs, found, body⟩ := FunctionNode.bodyOf_eq ends
    apply buildCfg_covers (newCfg_climbed forward built).2.2.2 tails whole inside _ named
    · obtain ⟨block, isBlock, notFunction⟩ := formed.targets b abs t found body c named
      refine ⟨block.controlFlow, ?_, notFunction⟩
      rw [FunctionNode.controlFlow_get, isBlock]
      rfl
    · unfold Function.terminator
      rw [FunctionNode.controlFlow_get, found]
      simp [AbstractionNode.controlFlow, body]

/-! ## Ways through the code -/

section Ways
variable {f : FunctionNode} {analysed : AnalysedCFG} (searched : Searched f analysed)
  {b u : AbsId} {path : List AbsId} (inside : some b ∈ analysed.cfg.contents)
include searched inside

theorem inside_of_walk (walk : Walk f.Names b u path) : some u ∈ analysed.cfg.contents := by
  induction walk with
  | start => exact inside
  | step _ named ih =>
      apply searched.sound.inside
      exact (searched.sound.reachable _ ih).step (searched.edges _ _ ih named)

/-- What dominates the end of a way and is not on it dominates its start. -/
theorem dominates_back (walk : Walk f.Names b u path) {p : CFNodeId}
    (dominates : analysed.Dom p (some u)) (away : p ∉ path.map some) :
    analysed.Dom p (some b) := by
  induction walk with
  | start => exact dominates
  | @step q v visited before named ih =>
      rw [List.map_cons, List.mem_cons, not_or] at away
      have edge := searched.edges q v (inside_of_walk searched inside before) named
      exact ih (dominates.of_edge away.1 edge) away.2

omit inside in
theorem below_iff {p : CFNodeId} (insideP : p ∈ analysed.cfg.contents) :
    analysed.Below b p ↔ Above analysed.tree.idom p (some b) := by
  obtain ⟨answer, found, iff⟩ := searched.climbed.answer p insideP (some b)
  unfold AnalysedCFG.Below
  rw [found, Except.ok.injEq]
  exact iff

theorem below_self : analysed.Below b (some b) :=
  (below_iff searched inside).mpr (Above.refl _)

/-- What dominates a block is not below it. -/
theorem eq_of_below {p : CFNodeId} (insideP : p ∈ analysed.cfg.contents)
    (dominates : analysed.Dom p (some b)) (below : analysed.Below b p) : p = some b := by
  by_contra different
  have up := searched.climbed.above p (some b) inside dominates
  have down := (below_iff searched insideP).mp below
  have one := searched.climbed.rank _ _ up different
  have two := searched.climbed.rank _ _ down (Ne.symm different)
  omega

/-- A definition that dominates its use and is not on the way is outside. -/
theorem outside_of_away (walk : Walk f.Names b u path) {p : CFNodeId}
    (dominates : analysed.Dom p (some u)) (away : p ∉ path.map some) :
    ¬ analysed.Dom (some b) p ∧ ¬ analysed.Below b p := by
  have back := dominates_back searched inside walk dominates away
  have insideU := inside_of_walk searched inside walk
  have insideP := dominator_inside searched.sound insideU dominates
  have other : p ≠ some b := by
    rintro rfl
    exact away (List.mem_map_of_mem walk.root_mem)
  constructor
  · intro forth
    exact other (Dominates.antisymm (searched.sound.reachable p insideP) back forth)
  · intro below
    exact other (eq_of_below searched inside insideP back below)

end Ways

section Needs
variable {f : FunctionNode} {analysed : AnalysedCFG} {path : List AbsId} {u : AbsId} {n : IrNode}

theorem FunctionNode.Needs.inBody (needs : f.Needs analysed path u n) :
    f.InBody analysed u (.value n) := by
  induction needs with
  | direct ends uses => exact ends.dependency uses
  | through _ _ _ uses ih => exact ih.operand uses

theorem FunctionNode.Needs.mono {longer : List AbsId} (needs : f.Needs analysed path u n)
    (within : ∀ w ∈ path, w ∈ longer) : f.Needs analysed longer u n := by
  induction needs with
  | direct ends uses => exact .direct ends uses
  | through _ placed onTheWay uses ih =>
      apply ih.through placed _ uses
      obtain ⟨w, member, same⟩ := List.mem_map.mp onTheWay
      exact List.mem_map.mpr ⟨w, within w member, same⟩

variable (searched : Searched f analysed)
include searched

/-- Code is placed above the block that it belongs to. -/
theorem placed_above {m : BodyNode} (body : f.InBody analysed u m) :
    ∃ place, scheduleInstruction analysed m = .ok place ∧ placement analysed m = place ∧
      ∀ p, place = some p → analysed.Dom p (some u) := by
  obtain ⟨place, scheduled, -, above⟩ := node_wellPlaced searched.sound searched.well body
  refine ⟨place, scheduled, ?_, above⟩
  simp only [placement, scheduled]

theorem FunctionNode.Needs.above (needs : f.Needs analysed path u n) {p : CFNodeId}
    (placed : placement analysed (.value n) = some p) : analysed.Dom p (some u) := by
  obtain ⟨place, -, same, above⟩ := placed_above searched needs.inBody
  exact above p (same.symm.trans placed)

/-- A terminator is placed in its own block. -/
theorem terminator_placed {t : TerminatorNode} (ends : f.InBody analysed u (.terminator t)) :
    scheduleInstruction analysed (.terminator t) = .ok (some (some u)) := by
  obtain ⟨place, scheduled, wellPlaced, above⟩ :=
    node_wellPlaced searched.sound searched.well ends
  obtain ⟨ofMem, placedMem, wellMem, -⟩ := node_wellPlaced searched.sound searched.well
    (ends.dependency t.mem_dependencies)
  have ownMem := wellMem.own u (searched.formed.root ends)
  have listed : some u ∈ operandPlaces analysed (.terminator t) :=
    List.mem_filterMap.mpr ⟨t.mem, t.mem_dependencies, ownMem⟩
  obtain ⟨q, isPlace, after⟩ := wellPlaced.after (some u) listed
  have same : placement analysed (.terminator t) = place := by
    simp only [placement, scheduled]
  rw [same] at isPlace
  have back := above q isPlace
  rw [scheduled, isPlace, Dominates.antisymm
    (searched.sound.reachable _ ends.inside) after back]

end Needs

/-! ## What a search meets -/

section Meet
variable (f : FunctionNode) (analysed : AnalysedCFG) (b : AbsId)

/-- The code that is reached from `b` through blocks below it, and the blocks it names. -/
def Met : BodyNode → Prop
  | .terminator t => ∃ u path, f.WayBelow analysed b u path ∧ f.InBody analysed u (.terminator t)
  | .block c => ∃ u path, f.WayBelow analysed b u path ∧ f.Names u c
  | .value n => ∃ u path, f.WayBelow analysed b u path ∧
      (f.Needs analysed path u n ∨ ∃ abs, f.get u = some abs ∧ n ∈ abs.params)

variable {f analysed b}

theorem FunctionNode.Names.inBody {u : AbsId} {t : TerminatorNode}
    (ends : (f.get u).bind AbstractionNode.body = some t)
    (inside : some u ∈ analysed.cfg.contents) : f.InBody analysed u (.terminator t) :=
  FunctionNode.inBody_terminator.mpr ⟨inside, t, ends, Or.inl rfl⟩

theorem mem_blockOperands {c : AbsId} {o : BodyNode} (operand : o ∈ f.operands (.block c)) :
    ∃ abs, f.get c = some abs ∧ ((∃ p ∈ abs.params, o = .value p) ∨
      ∃ t, abs.body = some t ∧ o = .terminator t) := by
  unfold FunctionNode.operands at operand
  cases found : f.get c with
  | none =>
      simp only [found] at operand
      cases operand
  | some abs =>
      simp only [found] at operand
      refine ⟨abs, rfl, ?_⟩
      cases List.mem_append.mp operand with
      | inl inParams =>
          obtain ⟨p, member, same⟩ := List.mem_map.mp inParams
          exact Or.inl ⟨p, member, same.symm⟩
      | inr inBody =>
          obtain ⟨t, body, same⟩ := Option.map_eq_some_iff.mp (Option.mem_toList.mp inBody)
          exact Or.inr ⟨t, body, same.symm⟩

theorem block_placed {c : AbsId} (insideC : some c ∈ analysed.cfg.contents) :
    scheduleInstruction analysed (.block c) = .ok (some (some c)) :=
  scheduleOwn_spec insideC

variable (searched : Searched f analysed) (inside : some b ∈ analysed.cfg.contents)
include searched inside

omit inside in
theorem inside_of_names {u c : AbsId} (insideU : some u ∈ analysed.cfg.contents)
    (named : f.Names u c) : some c ∈ analysed.cfg.contents :=
  inside_of_walk searched insideU (Walk.start.step named)

/-- The search meets only code on ways below its start. -/
theorem Met.step {m o : BodyNode} (met : Met f analysed b m)
    (step : FrontierStep f analysed (some b) m o) : Met f analysed b o := by
  obtain ⟨p, placed, below, operand⟩ := step
  cases m with
  | terminator t =>
      obtain ⟨u, path, way, ends⟩ := met
      have listed : o ∈ t.operands := operand
      cases o with
      | value n => exact ⟨u, path, way,
          Or.inl (.direct ends (TerminatorNode.value_mem_operands.mp listed))⟩
      | terminator j => exact ⟨u, path, way, ends.jump listed⟩
      | block c => exact ⟨u, path, way, ends.named listed⟩
  | block c =>
      obtain ⟨u, path, way, named⟩ := met
      have insideC := inside_of_names searched (inside_of_walk searched inside way.1) named
      rw [block_placed insideC] at placed
      obtain rfl := Option.some.inj (Except.ok.inj placed)
      have wayC : f.WayBelow analysed b c (c :: path) := by
        refine ⟨way.1.step named, ?_⟩
        intro w member
        cases List.mem_cons.mp member with
        | inl same => exact same ▸ below
        | inr earlier => exact way.2 w earlier
      obtain ⟨abs, found, isParam | isBody⟩ := mem_blockOperands operand
      · obtain ⟨param, member, rfl⟩ := isParam
        exact ⟨c, c :: path, wayC, Or.inr ⟨abs, found, member⟩⟩
      · obtain ⟨t, body, rfl⟩ := isBody
        exact ⟨c, c :: path, wayC, .terminator insideC found body⟩
  | value n =>
      obtain ⟨u, path, way, which⟩ := met
      obtain ⟨k, isOperand, rfl⟩ := List.mem_map.mp operand
      refine ⟨u, path, way, ?_⟩
      cases which with
      | inl needs =>
          have place : placement analysed (.value n) = some p := by
            simp only [placement, placed]
          -- what is below the start and above the code is on the way
          have onTheWay : p ∈ path.map some := by
            by_contra away
            have above := needs.above searched place
            exact (outside_of_away searched inside way.1 above away).2 below
          exact Or.inl (needs.through place onTheWay isOperand)
      | inr isParam =>
          obtain ⟨abs, found, member⟩ := isParam
          obtain ⟨id, rfl⟩ := searched.formed.params u abs found n member
          cases isOperand

theorem met_of_reached {last : TerminatorNode} (ends : (f.get b).bind AbstractionNode.body = some last)
    {m : BodyNode}
    (reached : Relation.ReflTransGen (FrontierStep f analysed (some b)) (.terminator last) m) :
    Met f analysed b m := by
  induction reached with
  | refl =>
      refine ⟨b, [b], ⟨Walk.start, ?_⟩, FunctionNode.Names.inBody ends inside⟩
      intro w member
      rw [List.mem_singleton.mp member]
      exact below_self searched inside
  | tail _ step ih => exact ih.step searched inside step

section Reach
variable {last : TerminatorNode} (ends : (f.get b).bind AbstractionNode.body = some last)
include ends

/-- The terminators of the blocks on a way below the start are met. -/
theorem reached_of_way {u : AbsId} {path : List AbsId} (way : f.WayBelow analysed b u path)
    {t : TerminatorNode} (isBody : f.InBody analysed u (.terminator t)) :
    Relation.ReflTransGen (FrontierStep f analysed (some b)) (.terminator last)
      (.terminator t) := by
  obtain ⟨walk, below⟩ := way
  -- jumps are operands of the terminator of the block
  have jumps : ∀ {v t own}, f.InBody analysed v (.terminator own) → analysed.Below b (some v) →
      (t = own ∨ .terminator t ∈ own.operands) →
      Relation.ReflTransGen (FrontierStep f analysed (some b)) (.terminator own)
        (.terminator t) := by
    intro v t own isOwn belowV which
    cases which with
    | inl same => exact same ▸ .refl
    | inr inner => exact .single ⟨_, terminator_placed searched isOwn, belowV, inner⟩
  induction walk generalizing t with
  | start =>
      obtain ⟨-, own, isOwn, which⟩ := FunctionNode.inBody_terminator.mp isBody
      obtain rfl := Option.some.inj (ends.symm.trans isOwn)
      exact jumps (FunctionNode.Names.inBody ends inside) (below b List.mem_cons_self) which
  | @step q v visited before named ih =>
      have belowQ := fun w member => below w (List.mem_cons_of_mem _ member)
      have insideQ := inside_of_walk searched inside before
      obtain ⟨outer, isOuter, target⟩ := named
      have outerBody := FunctionNode.Names.inBody isOuter insideQ
      obtain ⟨insideV, own, isOwn, which⟩ := FunctionNode.inBody_terminator.mp isBody
      have toBlock : Relation.ReflTransGen (FrontierStep f analysed (some b)) (.terminator last)
          (.block v) := by
        have placedAt : ∀ {t}, f.InBody analysed q (.terminator t) → .block v ∈ t.operands →
            Relation.ReflTransGen (FrontierStep f analysed (some b)) (.terminator last)
              (.block v) := by
          intro t isTerminator operand
          apply (ih isTerminator belowQ).tail
          exact ⟨_, terminator_placed searched isTerminator,
            belowQ q before.self_mem, operand⟩
        cases TerminatorNode.mem_targets.mp target with
        | inl direct => exact placedAt outerBody direct
        | inr inJump =>
            obtain ⟨j, inner, operand⟩ := inJump
            exact placedAt (outerBody.jump inner) operand
      have belowV := below v List.mem_cons_self
      have toOwn : Relation.ReflTransGen (FrontierStep f analysed (some b)) (.terminator last)
          (.terminator own) := by
        obtain ⟨abs, found, body⟩ := FunctionNode.bodyOf_eq isOwn
        apply toBlock.tail
        refine ⟨_, block_placed insideV, belowV, ?_⟩
        unfold FunctionNode.operands
        simp only [found]
        exact List.mem_append_right _ (by simp [body])
      exact toOwn.trans (jumps (FunctionNode.Names.inBody isOwn insideV) belowV which)

theorem reached_of_needs {u : AbsId} {path : List AbsId} (way : f.WayBelow analysed b u path)
    {n : IrNode} (needs : f.Needs analysed path u n) :
    Relation.ReflTransGen (FrontierStep f analysed (some b)) (.terminator last) (.value n) := by
  induction needs with
  | direct isBody uses =>
      apply (reached_of_way searched inside ends way isBody).tail
      exact ⟨_, terminator_placed searched isBody, way.2 u way.1.self_mem,
        TerminatorNode.value_mem_operands.mpr uses⟩
  | @through n o q needed placed onTheWay uses ih =>
      apply ih.tail
      obtain ⟨place, scheduled, same, -⟩ := placed_above searched needed.inBody
      obtain ⟨w, member, rfl⟩ := List.mem_map.mp onTheWay
      refine ⟨some w, ?_, way.2 w member, List.mem_map_of_mem uses⟩
      rw [scheduled, ← same, placed]

end Reach

end Meet

/-! ## What a frontier holds -/

section Holds
variable {f : FunctionNode} {analysed : AnalysedCFG} {b : AbsId}

/-- A value used on a way below `b` and placed outside. -/
def FunctionNode.UsedBelow (f : FunctionNode) (analysed : AnalysedCFG) (b : AbsId)
    (v : IrNode) : Prop :=
  v.isValue = true ∧ ∃ p u path, placement analysed (.value v) = some p ∧
    ¬ analysed.Below b p ∧ f.WayBelow analysed b u path ∧ f.Needs analysed path u v

/-- A search that returns has met what it could be led to. -/
theorem Swept.seen_iff {fuel : Nat} {root : BodyNode} {after : FrontierState}
    (swept : Swept f analysed (some b) fuel root ⟨[], []⟩ after) (here : root ∈ after.seen)
    (m : BodyNode) :
    m ∈ after.seen ↔ Relation.ReflTransGen (FrontierStep f analysed (some b)) root m := by
  constructor
  · exact fun member => swept.reached m member List.not_mem_nil
  · intro reached
    induction reached with
    | refl => exact here
    | tail _ step ih => exact (swept.handled _ ih List.not_mem_nil).operands _ step

theorem FunctionNode.Exits.inside {c : AbsId} (searched : Searched f analysed)
    (inside : some b ∈ analysed.cfg.contents) (exits : f.Exits analysed b c) :
    some c ∈ analysed.cfg.contents := by
  obtain ⟨u, path, way, named, -⟩ := exits
  exact inside_of_names searched (inside_of_walk searched inside way.1) named

/-- Ways and uses begin with the body. -/
theorem body_of_walk {u : AbsId} {path : List AbsId} (walk : Walk f.Names b u path)
    {t : TerminatorNode} (ends : (f.get u).bind AbstractionNode.body = some t) :
    ∃ last, (f.get b).bind AbstractionNode.body = some last := by
  induction walk generalizing t with
  | start => exact ⟨t, ends⟩
  | step _ named ih =>
      obtain ⟨own, isOwn, -⟩ := named
      exact ih isOwn

theorem FunctionNode.Needs.ends {u : AbsId} {path : List AbsId} {n : IrNode}
    (needs : f.Needs analysed path u n) :
    ∃ t, (f.get u).bind AbstractionNode.body = some t := by
  induction needs with
  | direct ends _ =>
      obtain ⟨-, last, isLast, -⟩ := FunctionNode.inBody_terminator.mp ends
      exact ⟨last, isLast⟩
  | through _ _ _ _ ih => exact ih

variable (searched : Searched f analysed) (inside : some b ∈ analysed.cfg.contents)
include searched

theorem outside_of_notBelow {p : CFNodeId} (insideP : p ∈ analysed.cfg.contents)
    (notBelow : ¬ analysed.Below b p) :
    isDominated analysed.cfg analysed.tree p (some b) = .ok false := by
  obtain ⟨answer, found, -⟩ := searched.climbed.answer p insideP (some b)
  cases answer with
  | true => exact absurd found notBelow
  | false => exact found

include inside

theorem reached_of_exits {last : TerminatorNode}
    (ends : (f.get b).bind AbstractionNode.body = some last) {c : AbsId}
    (exits : f.Exits analysed b c) :
    Relation.ReflTransGen (FrontierStep f analysed (some b)) (.terminator last) (.block c) ∧
      isDominated analysed.cfg analysed.tree (some c) (some b) = .ok false := by
  have insideC := exits.inside searched inside
  obtain ⟨u, path, way, ⟨own, isOwn, target⟩, notBelow⟩ := exits
  have ownBody := FunctionNode.Names.inBody isOwn (inside_of_walk searched inside way.1)
  have names : ∃ t, f.InBody analysed u (.terminator t) ∧ .block c ∈ t.operands := by
    cases TerminatorNode.mem_targets.mp target with
    | inl direct => exact ⟨own, ownBody, direct⟩
    | inr inJump =>
        obtain ⟨j, isJump, operand⟩ := inJump
        exact ⟨j, ownBody.jump isJump, operand⟩
  obtain ⟨t, isTerminator, operand⟩ := names
  constructor
  · apply (reached_of_way searched inside ends way isTerminator).tail
    exact ⟨_, terminator_placed searched isTerminator, way.2 u way.1.self_mem, operand⟩
  · exact outside_of_notBelow searched insideC notBelow

theorem visit_contributes {last : TerminatorNode}
    (ends : (f.get b).bind AbstractionNode.body = some last) {fuel : Nat} {v : IrNode} :
    (∃ m, Relation.ReflTransGen (FrontierStep f analysed (some b)) (.terminator last) m ∧
      Contributes f analysed (some b) fuel m v) ↔
    f.UsedBelow analysed b v ∨ ∃ c inner set, f.Exits analysed b c ∧ inner < fuel ∧
      freeFrontier f analysed inner c = .ok set ∧ v ∈ set := by
  constructor
  · rintro ⟨m, reached, p, placed, outside, which⟩
    have met := met_of_reached searched inside ends reached
    have notBelow : ¬ analysed.Below b p := by
      unfold AnalysedCFG.Below
      rw [outside]
      simp
    cases which with
    | inl isOwn =>
        obtain ⟨rfl, isValue⟩ := isOwn
        have place : placement analysed (.value v) = some p := by
          simp only [placement, placed]
        obtain ⟨u, path, way, needs | ⟨abs, isAbs, member⟩⟩ := met
        · exact Or.inl ⟨isValue, p, u, path, place, notBelow, way, needs⟩
        · obtain ⟨id, rfl⟩ := searched.formed.params u abs isAbs v member
          -- a parameter of a block below the start is not outside
          have own : scheduleInstruction analysed (.value (.param id u)) = .ok (some (some u)) :=
            scheduleOwn_spec (inside_of_walk searched inside way.1)
          rw [own] at placed
          obtain rfl := Option.some.inj (Except.ok.inj placed)
          exact absurd (way.2 u way.1.self_mem) notBelow
    | inr inOther =>
        obtain ⟨c, inner, set, rfl, smaller, found, member⟩ := inOther
        obtain ⟨u, path, way, named⟩ := met
        have insideC := inside_of_names searched (inside_of_walk searched inside way.1) named
        rw [block_placed insideC] at placed
        obtain rfl := Option.some.inj (Except.ok.inj placed)
        exact Or.inr ⟨c, inner, set, ⟨u, path, way, named, notBelow⟩, smaller, found, member⟩
  · rintro (used | ⟨c, inner, set, exits, smaller, found, member⟩)
    · obtain ⟨isValue, p, u, path, place, notBelow, way, needs⟩ := used
      obtain ⟨place', scheduled, same, above⟩ := placed_above searched needs.inBody
      rw [place] at same
      rw [← same] at scheduled
      have insideP := dominator_inside searched.sound
        (inside_of_walk searched inside way.1) (above p same.symm)
      exact ⟨.value v, reached_of_needs searched inside ends way needs, p, scheduled,
        outside_of_notBelow searched insideP notBelow, Or.inl ⟨rfl, isValue⟩⟩
    · obtain ⟨reached, outside⟩ := reached_of_exits searched inside ends exits
      exact ⟨.block c, reached, some c, block_placed (exits.inside searched inside), outside,
        Or.inr ⟨c, inner, set, rfl, smaller, found, member⟩⟩

/-- What is in the frontier of a block, by the frontiers of the blocks it exits to. -/
theorem freeFrontier_step {fuel : Nat} {set : List IrNode}
    (found : freeFrontier f analysed fuel b = .ok set) :
    (∀ v, v ∈ set ↔ f.UsedBelow analysed b v ∨ ∃ c inner other, f.Exits analysed b c ∧
      inner < fuel ∧ freeFrontier f analysed inner c = .ok other ∧ v ∈ other) ∧
    ∀ c, f.Exits analysed b c → ∃ inner other, inner < fuel ∧
      freeFrontier f analysed inner c = .ok other := by
  cases fuel with
  | zero => simp [freeFrontier] at found
  | succ fuel =>
      rw [freeFrontier] at found
      obtain ⟨start, isStart, found⟩ := bind_eq_ok.mp found
      unfold cfgLookup at isStart
      rw [if_pos inside] at isStart
      obtain rfl := Except.ok.inj isStart
      cases body : (f.get b).bind AbstractionNode.body with
      | none =>
          rw [body] at found
          obtain rfl := pure_eq_ok.mp found
          have noBody : ∀ {u path t}, Walk f.Names b u path →
              (f.get u).bind AbstractionNode.body ≠ some t := by
            intro u path t walk ends
            obtain ⟨last, isLast⟩ := body_of_walk walk ends
            rw [body] at isLast
            cases isLast
          have noExit : ∀ c, ¬ f.Exits analysed b c := by
            rintro c ⟨u, path, way, ⟨t, ends, -⟩, -⟩
            exact noBody way.1 ends
          constructor
          · intro v
            constructor
            · exact fun member => absurd member List.not_mem_nil
            · rintro (⟨-, p, u, path, -, -, way, needs⟩ | ⟨c, -, -, exits, -⟩)
              · obtain ⟨t, ends⟩ := needs.ends
                exact absurd ends (noBody way.1)
              · exact absurd exits (noExit c)
          · exact fun c exits => absurd exits (noExit c)
      | some last =>
          rw [body] at found
          obtain ⟨state, visited, found⟩ := bind_eq_ok.mp found
          obtain rfl := pure_eq_ok.mp found
          obtain ⟨swept, here⟩ := visitFreeFrontier_swept fuel _ _ _ visited
          have seen := fun m => swept.seen_iff here m
          have exit_found : ∀ c, f.Exits analysed b c → ∃ inner other, inner < fuel ∧
              freeFrontier f analysed inner c = .ok other := by
            intro c exits
            obtain ⟨reached, outside⟩ := reached_of_exits searched inside body exits
            have handled := swept.handled _ ((seen _).mpr reached) List.not_mem_nil
            exact handled.blocks c (some c) rfl (block_placed (exits.inside searched inside))
              outside
          have contributes := @visit_contributes f analysed b searched inside last body fuel
          constructor
          · intro v
            rw [swept.frontier v]
            constructor
            · rintro (nothing | ⟨m, member, -, held⟩)
              · exact absurd nothing List.not_mem_nil
              · cases contributes.mp ⟨m, (seen m).mp member, held⟩ with
                | inl used => exact Or.inl used
                | inr inOther =>
                    obtain ⟨c, inner, other, exits, smaller, rest⟩ := inOther
                    exact Or.inr ⟨c, inner, other, exits, smaller.trans fuel.lt_succ_self, rest⟩
            · intro which
              refine Or.inr ?_
              have held : f.UsedBelow analysed b v ∨ ∃ c inner set, f.Exits analysed b c ∧
                  inner < fuel ∧ freeFrontier f analysed inner c = .ok set ∧ v ∈ set := by
                cases which with
                | inl used => exact Or.inl used
                | inr inOther =>
                    obtain ⟨c, inner, other, exits, -, found, member⟩ := inOther
                    obtain ⟨k, again, smaller, found'⟩ := exit_found c exits
                    obtain rfl := freeFrontier_unique found found'
                    exact Or.inr ⟨c, k, other, exits, smaller, found', member⟩
              obtain ⟨m, reached, holds⟩ := contributes.mpr held
              exact ⟨m, (seen m).mpr reached, List.not_mem_nil, holds⟩
          · intro c exits
            obtain ⟨inner, other, smaller, found⟩ := exit_found c exits
            exact ⟨inner, other, smaller.trans fuel.lt_succ_self, found⟩

end Holds

/-! ## Exactness -/

section Exact
variable {f : FunctionNode} {analysed : AnalysedCFG} (searched : Searched f analysed)
  {b c u w : AbsId} {first second : List AbsId} (inside : some b ∈ analysed.cfg.contents)
include searched inside

omit inside in
/-- What stands on the way below `b` does not dominate a block that is not below `b`. -/
theorem notMem_of_exit (insideC : some c ∈ analysed.cfg.contents)
    (below : ∀ x ∈ first, analysed.Below b (some x)) (notBelow : ¬ analysed.Below b (some c))
    {p : CFNodeId} (dominates : analysed.Dom p (some c)) : p ∉ first.map some := by
  intro onFirst
  obtain ⟨x, member, rfl⟩ := List.mem_map.mp onFirst
  have insideX := dominator_inside searched.sound insideC dominates
  apply notBelow
  apply (below_iff searched insideC).mpr
  exact (searched.climbed.above _ _ insideC dominates).trans
    ((below_iff searched insideX).mp (below x member))

omit inside in
/-- After the exit, only the rest of the way matters. -/
theorem FunctionNode.Needs.restrict (insideC : some c ∈ analysed.cfg.contents)
    (below : ∀ x ∈ first, analysed.Below b (some x)) (notBelow : ¬ analysed.Below b (some c))
    (rest : Walk f.Names c u second) {n : IrNode}
    (needs : f.Needs analysed (second ++ first) u n) : f.Needs analysed second u n := by
  induction needs with
  | direct ends uses => exact .direct ends uses
  | @through n o q needed placed onTheWay uses ih =>
      apply ih.through placed _ uses
      by_contra away
      have atExit := dominates_back searched insideC rest (needed.above searched placed) away
      have notFirst := notMem_of_exit searched insideC below notBelow atExit
      rw [List.map_append, List.mem_append] at onTheWay
      exact onTheWay.elim away notFirst

theorem freeIn_of_usedBelow {v : IrNode} (used : f.UsedBelow analysed b v) :
    f.FreeIn analysed b v := by
  obtain ⟨isValue, p, u, path, placed, notBelow, way, needs⟩ := used
  have above := needs.above searched placed
  have away : p ∉ path.map some := by
    intro onTheWay
    obtain ⟨x, member, rfl⟩ := List.mem_map.mp onTheWay
    exact notBelow (way.2 x member)
  exact ⟨isValue, p, u, path, placed,
    (outside_of_away searched inside way.1 above away).1, way.1, needs, away⟩

theorem freeIn_of_exit (exits : f.Exits analysed b c) {v : IrNode}
    (free : f.FreeIn analysed c v) : f.FreeIn analysed b v := by
  have insideC := exits.inside searched inside
  obtain ⟨w, first, way, named, notBelow⟩ := exits
  obtain ⟨isValue, p, u, second, placed, -, rest, needs, away⟩ := free
  have above := needs.above searched placed
  have atExit := dominates_back searched insideC rest above away
  have notFirst := notMem_of_exit searched insideC way.2 notBelow atExit
  have whole := way.1.after named rest
  have awayBoth : p ∉ (second ++ first).map some := by
    rw [List.map_append, List.mem_append]
    exact fun which => which.elim away notFirst
  refine ⟨isValue, p, u, second ++ first, placed,
    (outside_of_away searched inside whole above awayBoth).1, whole, ?_, awayBoth⟩
  exact needs.mono fun x member => List.mem_append_left _ member

/-- A free value is used on a way below the block, or free in a block it exits to. -/
theorem freeIn_iff {v : IrNode} :
    f.FreeIn analysed b v ↔ f.UsedBelow analysed b v ∨
      ∃ c, f.Exits analysed b c ∧ f.FreeIn analysed c v := by
  constructor
  · rintro ⟨isValue, p, u, path, placed, -, walk, needs, away⟩
    have above := needs.above searched placed
    obtain all | ⟨w, c, first, second, before, below, named, notBelow, rest, rfl⟩ :=
      walk.split (fun x => analysed.Below b (some x)) (below_self searched inside)
    · exact Or.inl ⟨isValue, p, u, path, placed,
        (outside_of_away searched inside walk above away).2, ⟨walk, all⟩, needs⟩
    · have exits : f.Exits analysed b c := ⟨w, first, ⟨before, below⟩, named, notBelow⟩
      have insideC := exits.inside searched inside
      rw [List.map_append, List.mem_append, not_or] at away
      refine Or.inr ⟨c, exits, isValue, p, u, second, placed, ?_, rest, ?_, away.1⟩
      · exact (outside_of_away searched insideC rest above away.1).1
      · exact needs.restrict searched insideC below notBelow rest
  · rintro (used | ⟨c, exits, free⟩)
    · exact freeIn_of_usedBelow searched inside used
    · exact freeIn_of_exit searched inside exits free

omit inside in
theorem freeFrontier_exact (fuel : Nat) : ∀ b set, some b ∈ analysed.cfg.contents →
    freeFrontier f analysed fuel b = .ok set → ∀ v, v ∈ set ↔ f.FreeIn analysed b v := by
  induction fuel using Nat.strong_induction_on with
  | _ fuel ih =>
      intro b set inside found v
      obtain ⟨holds, returns⟩ := freeFrontier_step searched inside found
      rw [holds, freeIn_iff searched inside]
      apply or_congr_right
      constructor
      · rintro ⟨c, inner, other, exits, smaller, foundC, member⟩
        exact ⟨c, exits,
          (ih inner smaller c other (exits.inside searched inside) foundC v).mp member⟩
      · rintro ⟨c, exits, free⟩
        obtain ⟨inner, other, smaller, foundC⟩ := returns c exits
        exact ⟨c, inner, other, exits, smaller, foundC,
          (ih inner smaller c other (exits.inside searched inside) foundC v).mpr free⟩

/-- Where a frontier is computed, the exits end. -/
theorem acc_of_found {fuel : Nat} {set : List IrNode}
    (found : freeFrontier f analysed fuel b = .ok set) :
    Acc (fun c b => f.Exits analysed b c) b := by
  induction fuel using Nat.strong_induction_on generalizing b set with
  | _ fuel ih =>
      constructor
      intro c exits
      obtain ⟨inner, other, smaller, foundC⟩ :=
        (freeFrontier_step searched inside found).2 c exits
      exact ih inner smaller (exits.inside searched inside) foundC

end Exact

end Shady
