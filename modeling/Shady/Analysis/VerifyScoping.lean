import Shady.Analysis.FreeFrontierEnds
import Shady.Analysis.ScopeCfg

/-!
# What the verification of scoping accepts

A function is accepted if the frontier of its entry is empty and no assertion of the
scheduler fails on the way. All blocks are below the entry, so that the frontier is empty
anyhow, and the assertions compare the definitions that a terminator depends on with each
other, but not with the block of the terminator.
-/

set_option autoImplicit false

namespace Shady
open Dominance Fallible

/-- What `verify_scoping` does with the graph of a function. -/
def verifyCfg (fuel : Nat) (f : FunctionNode) (analysed : AnalysedCFG) :
    Except ScopingError Unit :=
  match freeFrontier f analysed fuel f.self with
  | .error e => .error (.cfg e)
  | .ok [] => .ok ()
  | .ok set => .error (.leaking set)

/-- `verify_scoping` on the functions of a module, with the graphs built first. -/
def verifyScoping (fuel : Nat) (functions : List FunctionNode) : Except ScopingError Unit := do
  let cfgs ← functions.mapM fun f =>
    match newCfg f.controlFlow f.self structuredScopeCfgBuild with
    | .error e => .error (.cfg e)
    | .ok analysed => .ok (f, analysed)
  cfgs.forM fun cfg => verifyCfg fuel cfg.1 cfg.2

/-- A module is accepted if each of its functions is. -/
theorem verifyScoping_eq_ok {fuel : Nat} {functions : List FunctionNode} :
    verifyScoping fuel functions = .ok () ↔ ∀ f ∈ functions, ∃ analysed,
      newCfg f.controlFlow f.self structuredScopeCfgBuild = .ok analysed ∧
        verifyCfg fuel f analysed = .ok () := by
  have graph : ∀ {f : FunctionNode} {result : FunctionNode × AnalysedCFG},
      (match newCfg f.controlFlow f.self structuredScopeCfgBuild with
        | .error e => .error (ScopingError.cfg e)
        | .ok analysed => .ok (f, analysed)) = Except.ok result ↔
      f = result.1 ∧ newCfg f.controlFlow f.self structuredScopeCfgBuild = .ok result.2 := by
    intro f result
    cases newCfg f.controlFlow f.self structuredScopeCfgBuild with
    | error e => simp
    | ok analysed => simp [Prod.ext_iff]
  unfold verifyScoping
  rw [bind_eq_ok]
  constructor
  · rintro ⟨cfgs, built, passed⟩ f member
    obtain ⟨result, listed, isGraph⟩ := mem_mapM_of_mem built f member
    obtain ⟨rfl, isBuilt⟩ := graph.mp isGraph
    exact ⟨result.2, isBuilt, forM_eq_ok.mp passed result listed⟩
  · intro each
    have graphs : ∀ f ∈ functions, ∃ result,
        (match newCfg f.controlFlow f.self structuredScopeCfgBuild with
          | .error e => .error (ScopingError.cfg e)
          | .ok analysed => .ok (f, analysed)) = Except.ok result := by
      intro f member
      obtain ⟨analysed, isBuilt, -⟩ := each f member
      exact ⟨(f, analysed), graph.mpr ⟨rfl, isBuilt⟩⟩
    obtain ⟨cfgs, built⟩ := mapM_succeeds graphs
    refine ⟨cfgs, built, forM_eq_ok.mpr fun result listed => ?_⟩
    obtain ⟨f, member, isGraph⟩ := mem_of_mapM built result listed
    obtain ⟨rfl, isBuilt⟩ := graph.mp isGraph
    obtain ⟨analysed, isBuilt', accepted⟩ := each _ member
    obtain rfl := Except.ok.inj (isBuilt.symm.trans isBuilt')
    exact accepted

/-! ## Uses and definitions -/

mutual
/-- The blocks in which a node, used in the block `c`, uses definitions, with the blocks of
these. -/
def IrNode.uses (c : AbsId) : IrNode → List (AbsId × AbsId)
  | .param _ abs => [(c, abs)]
  | .absMem _ abs => [(c, abs)]
  | .pure _ _ operands => usesAll c operands
  | .instr _ _ mem operands => mem.uses c ++ usesAll (mem.root.getD c) operands

def IrNode.usesAll (c : AbsId) : List IrNode → List (AbsId × AbsId)
  | [] => []
  | n :: ns => n.uses c ++ usesAll c ns
end

mutual
/-- The blocks of the definitions that a node depends on. -/
def IrNode.definitions : IrNode → List AbsId
  | .param _ abs => [abs]
  | .absMem _ abs => [abs]
  | .pure _ _ operands => definitionsAll operands
  | .instr _ _ mem operands => mem.definitions ++ definitionsAll operands

def IrNode.definitionsAll : List IrNode → List AbsId
  | [] => []
  | n :: ns => n.definitions ++ definitionsAll ns
end

/-- Blocks of the graph that are ordered by dominance. -/
def Ordered (analysed : AnalysedCFG) (blocks : List AbsId) : Prop :=
  ∀ d ∈ blocks, some d ∈ analysed.cfg.contents ∧ ∀ d' ∈ blocks,
    analysed.Dom (some d) (some d') ∨ analysed.Dom (some d') (some d)

namespace FunctionNode
variable (f : FunctionNode) (analysed : AnalysedCFG)

/-- Code of the block `b` uses a definition of the block `d`. -/
def UsesAt (b d : AbsId) : Prop :=
  ∃ c t, f.InBody analysed c (.terminator t) ∧ (b, d) ∈ IrNode.usesAll c t.dependencies

/-- No block uses a definition of another block that it dominates. -/
def NothingBelow : Prop :=
  ∀ b d, f.UsesAt analysed b d → analysed.Dom (some b) (some d) → b = d

/-- The definitions that a terminator depends on are in blocks of the function that are
ordered by dominance. -/
def DefinitionsOrdered : Prop :=
  ∀ b t, f.InBody analysed b (.terminator t) →
    Ordered analysed (IrNode.definitionsAll t.dependencies)

end FunctionNode

namespace IrNode

theorem mem_usesAll {c : AbsId} {use : AbsId × AbsId} {ns : List IrNode} :
    use ∈ usesAll c ns ↔ ∃ n ∈ ns, use ∈ n.uses c := by
  induction ns with
  | nil => simp [usesAll]
  | cons n ns ih => simp [usesAll, ih]

theorem mem_definitionsAll {d : AbsId} {ns : List IrNode} :
    d ∈ definitionsAll ns ↔ ∃ n ∈ ns, d ∈ n.definitions := by
  induction ns with
  | nil => simp [definitionsAll]
  | cons n ns ih => simp [definitionsAll, ih]

theorem root_mem_definitions {n : IrNode} {h : AbsId} (root : n.root = some h) :
    h ∈ n.definitions := by
  induction n using inductOn with
  | param id abs =>
      obtain rfl := Option.some.inj root
      exact List.mem_singleton_self _
  | absMem id abs =>
      obtain rfl := Option.some.inj root
      exact List.mem_singleton_self _
  | pure id tag operands _ => cases root
  | instr id tag mem operands ihMem _ => exact List.mem_append_left _ (ihMem root)

/-- A node is in scope if its uses are. -/
theorem scopedAt_iff (dom : AbsId → AbsId → Prop) (n : IrNode) :
    ∀ c, n.ScopedAt dom c ↔ ∀ b d, (b, d) ∈ n.uses c → dom d b := by
  have all : ∀ {operands : List IrNode}, (∀ o ∈ operands, ∀ c,
      o.ScopedAt dom c ↔ ∀ b d, (b, d) ∈ o.uses c → dom d b) → ∀ c,
      scopedAll dom c operands ↔ ∀ b d, (b, d) ∈ usesAll c operands → dom d b := by
    intro operands ih c
    simp only [scopedAll_iff, mem_usesAll]
    constructor
    · rintro scope b d ⟨o, member, use⟩
      exact (ih o member c).mp (scope o member) b d use
    · intro each o member
      exact (ih o member c).mpr fun b d use => each b d ⟨o, member, use⟩
  induction n using inductOn with
  | param id abs => simp [ScopedAt, uses]
  | absMem id abs => simp [ScopedAt, uses]
  | pure id tag operands ih =>
      intro c
      unfold ScopedAt uses
      exact all ih c
  | instr id tag mem operands ihMem ih =>
      intro c
      unfold ScopedAt uses
      rw [ihMem, all ih]
      simp only [List.mem_append, or_imp, forall_and]

/-- Uses are of definitions, and in the block of the user or of a definition. -/
theorem uses_definitions (n : IrNode) : ∀ c b d, (b, d) ∈ n.uses c →
    d ∈ n.definitions ∧ (b = c ∨ b ∈ n.definitions) := by
  have all : ∀ {operands : List IrNode}, (∀ o ∈ operands, ∀ c b d, (b, d) ∈ o.uses c →
      d ∈ o.definitions ∧ (b = c ∨ b ∈ o.definitions)) → ∀ c b d,
      (b, d) ∈ usesAll c operands →
      d ∈ definitionsAll operands ∧ (b = c ∨ b ∈ definitionsAll operands) := by
    intro operands ih c b d use
    obtain ⟨o, member, inner⟩ := mem_usesAll.mp use
    obtain ⟨defined, user⟩ := ih o member c b d inner
    exact ⟨mem_definitionsAll.mpr ⟨o, member, defined⟩,
      user.imp_right fun inside => mem_definitionsAll.mpr ⟨o, member, inside⟩⟩
  induction n using inductOn with
  | param id abs =>
      intro c b d use
      cases List.mem_singleton.mp use
      exact ⟨List.mem_singleton_self _, Or.inl rfl⟩
  | absMem id abs =>
      intro c b d use
      cases List.mem_singleton.mp use
      exact ⟨List.mem_singleton_self _, Or.inl rfl⟩
  | pure id tag operands ih =>
      intro c b d use
      unfold uses at use
      unfold definitions
      exact all ih c b d use
  | instr id tag mem operands ihMem ih =>
      intro c b d use
      unfold uses at use
      unfold definitions
      simp only [List.mem_append] at use ⊢
      cases use with
      | inl ofMem =>
          obtain ⟨defined, user⟩ := ihMem c b d ofMem
          exact ⟨Or.inl defined, user.imp_right Or.inl⟩
      | inr ofOperands =>
          obtain ⟨defined, user⟩ := all ih _ b d ofOperands
          refine ⟨Or.inr defined, ?_⟩
          cases user with
          | inr inside => exact Or.inr (Or.inr inside)
          | inl same =>
              cases root : mem.root with
              | none => exact Or.inl (by rw [same, root]; rfl)
              | some h =>
                  rw [root] at same
                  exact Or.inr (Or.inl (same ▸ root_mem_definitions root))

end IrNode

/-! ## Placements and definitions -/

section Place
variable {analysed : AnalysedCFG} (sound : analysed.Sound)

theorem Last.mem {places : List CFNodeId} {p : CFNodeId} (last : Last analysed places (some p)) :
    p ∈ places := last.1

theorem Last.append_none {places more : List CFNodeId} {result : Option CFNodeId}
    (last : Last analysed places result) (none : Last analysed more none) :
    Last analysed (places ++ more) result := by
  have empty : more = [] := none
  rwa [empty, List.append_nil]

theorem scheduleOwn_last {abs : AbsId} {result : Option CFNodeId}
    (ran : (do
      let where_ ← cfgLookup analysed abs
      scheduleAfter analysed none (some where_)) = .ok result) :
    some abs ∈ analysed.cfg.contents ∧ result = some (some abs) := by
  unfold cfgLookup at ran
  split_ifs at ran with inside
  · exact ⟨inside, (Except.ok.inj ran).symm⟩
  · cases ran

section Exact
variable (exact : analysed.tree.Exact analysed.cfg)
include exact

/-- Of two lists of places, the last of all is taken. -/
theorem scheduleAfter_last {places more : List CFNodeId} {scheduled req result : Option CFNodeId}
    (inside : ∀ p ∈ places ++ more, p ∈ analysed.cfg.contents)
    (last : Last analysed places scheduled) (next : Last analysed more req)
    (placed : scheduleAfter analysed scheduled req = .ok result) :
    Last analysed (places ++ more) result := by
  have dominates : ∀ {a b}, a ∈ places ++ more → b ∈ places ++ more →
      isDominated analysed.cfg analysed.tree a b = .ok true → analysed.Dom b a := by
    intro a b memberA memberB answered
    obtain ⟨answer, found, iff⟩ := exact.2 a (inside a memberA) b (inside b memberB)
    exact iff.mp (Except.ok.inj (found.symm.trans answered))
  cases req with
  | none =>
      have same : result = scheduled := by
        cases scheduled <;> exact (Except.ok.inj placed).symm
      exact same ▸ last.append_none next
  | some req =>
      have memberReq := List.mem_append_right places next.mem
      cases scheduled with
      | none =>
          have empty : places = [] := last
          obtain rfl := Except.ok.inj placed
          rwa [empty, List.nil_append]
      | some old =>
          have memberOld := List.mem_append_left more last.mem
          simp only [scheduleAfter] at placed
          split_ifs at placed
          · obtain ⟨answer, answered, placed⟩ := bind_eq_ok.mp placed
            cases answer with
            | false => cases placed
            | true =>
                obtain rfl := Except.ok.inj placed
                refine ⟨memberReq, fun q member => ?_⟩
                cases List.mem_append.mp member with
                | inl first => exact (last.2 q first).trans (dominates memberReq memberOld answered)
                | inr second => exact next.2 q second
          · obtain ⟨answer, answered, placed⟩ := bind_eq_ok.mp placed
            cases answer with
            | false => cases placed
            | true =>
                obtain rfl := Except.ok.inj placed
                refine ⟨memberOld, fun q member => ?_⟩
                cases List.mem_append.mp member with
                | inl first => exact last.2 q first
                | inr second =>
                    exact (next.2 q second).trans (dominates memberOld memberReq answered)

/-- The operands that are scheduled in turn. -/
theorem scheduleOperands_last {operands : List IrNode}
    (each : ∀ o ∈ operands, ∀ result, scheduleNode analysed o = .ok result →
      (∀ d ∈ o.definitions, some d ∈ analysed.cfg.contents) ∧
        Last analysed (o.definitions.map some) result) :
    ∀ start places result, (∀ p ∈ places, p ∈ analysed.cfg.contents) →
      Last analysed places start → scheduleOperands analysed start operands = .ok result →
      (∀ d ∈ IrNode.definitionsAll operands, some d ∈ analysed.cfg.contents) ∧
        Last analysed (places ++ (IrNode.definitionsAll operands).map some) result := by
  induction operands with
  | nil =>
      intro start places result _ last ran
      obtain rfl := Except.ok.inj ran
      exact ⟨fun d member => absurd member List.not_mem_nil, last.append_none rfl⟩
  | cons o operands ih =>
      intro start places result inside last ran
      unfold scheduleOperands at ran
      obtain ⟨req, first, ran⟩ := bind_eq_ok.mp ran
      obtain ⟨next, after, ran⟩ := bind_eq_ok.mp ran
      obtain ⟨insideO, lastO⟩ := each o List.mem_cons_self req first
      have insideBoth : ∀ p ∈ places ++ o.definitions.map some, p ∈ analysed.cfg.contents := by
        intro p member
        cases List.mem_append.mp member with
        | inl old => exact inside p old
        | inr new =>
            obtain ⟨d, defined, rfl⟩ := List.mem_map.mp new
            exact insideO d defined
      have lastNext := scheduleAfter_last exact insideBoth last lastO after
      obtain ⟨insideRest, lastRest⟩ := ih (fun o member => each o (List.mem_cons_of_mem _ member))
        next _ result insideBoth lastNext ran
      unfold IrNode.definitionsAll
      constructor
      · intro d member
        cases List.mem_append.mp member with
        | inl ofFirst => exact insideO d ofFirst
        | inr ofRest => exact insideRest d ofRest
      · rwa [List.map_append, ← List.append_assoc]

/-- A node that is scheduled has its definitions in the graph, and is placed at the last. -/
theorem scheduleNode_last (n : IrNode) : ∀ result, scheduleNode analysed n = .ok result →
    (∀ d ∈ n.definitions, some d ∈ analysed.cfg.contents) ∧
      Last analysed (n.definitions.map some) result := by
  have own : ∀ {abs : AbsId} {result}, some abs ∈ analysed.cfg.contents →
      result = some (some abs) → (∀ d ∈ [abs], some d ∈ analysed.cfg.contents) ∧
        Last analysed ([abs].map some) result := by
    rintro abs result inside rfl
    refine ⟨fun d member => List.mem_singleton.mp member ▸ inside, List.mem_singleton_self _, ?_⟩
    intro q member
    rw [List.mem_singleton.mp member]
    exact dominates_refl _
  induction n using IrNode.inductOn with
  | param id abs =>
      intro result ran
      unfold scheduleNode at ran
      obtain ⟨inside, same⟩ := scheduleOwn_last ran
      exact own inside same
  | absMem id abs =>
      intro result ran
      unfold scheduleNode at ran
      obtain ⟨inside, same⟩ := scheduleOwn_last ran
      exact own inside same
  | pure id tag operands ih =>
      intro result ran
      unfold scheduleNode at ran
      unfold IrNode.definitions
      exact scheduleOperands_last exact ih none [] result (fun c absent => by cases absent) rfl ran
  | instr id tag mem operands ihMem ih =>
      intro result ran
      unfold scheduleNode at ran
      obtain ⟨ofMem, first, ran⟩ := bind_eq_ok.mp ran
      obtain ⟨start, after, ran⟩ := bind_eq_ok.mp ran
      obtain rfl : ofMem = start := by
        cases ofMem <;> exact Except.ok.inj after
      obtain ⟨insideMem, lastMem⟩ := ihMem ofMem first
      have insidePlaces : ∀ p ∈ mem.definitions.map some, p ∈ analysed.cfg.contents := by
        intro p member
        obtain ⟨d, defined, rfl⟩ := List.mem_map.mp member
        exact insideMem d defined
      obtain ⟨insideRest, lastRest⟩ :=
        scheduleOperands_last exact ih ofMem _ result insidePlaces lastMem ran
      unfold IrNode.definitions
      constructor
      · intro d member
        cases List.mem_append.mp member with
        | inl inMem => exact insideMem d inMem
        | inr inRest => exact insideRest d inRest
      · rwa [List.map_append]

end Exact

include sound

/-- A node is scheduled if its definitions are above one block. -/
theorem scheduleNode_above (n : IrNode) {c : CFNodeId} (inside : c ∈ analysed.cfg.contents)
    (above : ∀ d ∈ n.definitions, analysed.Dom (some d) c) :
    ∃ result, scheduleNode analysed n = .ok result ∧
      ∀ p, result = some p → analysed.Dom p c := by
  have all : ∀ {operands : List IrNode}, (∀ o ∈ operands,
      (∀ d ∈ o.definitions, analysed.Dom (some d) c) → ∃ result,
        scheduleNode analysed o = .ok result ∧ ∀ p, result = some p → analysed.Dom p c) →
      (∀ d ∈ IrNode.definitionsAll operands, analysed.Dom (some d) c) →
      ∀ start, (∀ p, start = some p → analysed.Dom p c) → ∃ result,
        scheduleOperands analysed start operands = .ok result ∧
          ∀ p, result = some p → analysed.Dom p c := by
    intro operands ih above start aboveStart
    have single : Last analysed start.toList start := by
      cases start with
      | none => rfl
      | some p =>
          refine ⟨List.mem_singleton_self p, fun q member => ?_⟩
          rw [List.mem_singleton.mp member]
          exact dominates_refl p
    obtain ⟨result, ran, -, aboveResult⟩ := scheduleOperands_spec sound inside
      (fun o member => ih o member fun d defined =>
        above d (IrNode.mem_definitionsAll.mpr ⟨o, member, defined⟩))
      start start.toList single aboveStart
    exact ⟨result, ran, aboveResult⟩
  have own : ∀ {abs : AbsId}, analysed.Dom (some abs) c → ∃ result, (do
      let where_ ← cfgLookup analysed abs
      scheduleAfter analysed none (some where_)) = .ok result ∧
        ∀ p, result = some p → analysed.Dom p c := by
    intro abs dominates
    refine ⟨_, scheduleOwn_spec (dominator_inside sound inside dominates), ?_⟩
    rintro p same
    exact Option.some.inj same ▸ dominates
  induction n using IrNode.inductOn with
  | param id abs =>
      unfold scheduleNode
      exact own (above abs (List.mem_singleton_self _))
  | absMem id abs =>
      unfold scheduleNode
      exact own (above abs (List.mem_singleton_self _))
  | pure id tag operands ih =>
      unfold scheduleNode
      unfold IrNode.definitions at above
      exact all ih above none fun c absent => by cases absent
  | instr id tag mem operands ihMem ih =>
      unfold IrNode.definitions at above
      obtain ⟨ofMem, placedMem, aboveMem⟩ :=
        ihMem fun d defined => above d (List.mem_append_left _ defined)
      obtain ⟨result, placed, aboveResult⟩ :=
        all ih (fun d defined => above d (List.mem_append_right _ defined)) ofMem aboveMem
      refine ⟨result, ?_, aboveResult⟩
      have first : scheduleAfter analysed none ofMem = .ok ofMem := by cases ofMem <;> rfl
      unfold scheduleNode
      simp only [placedMem, bind, Except.bind, first]
      exact placed

omit sound in
/-- Of blocks that are ordered, one is the last. -/
theorem exists_last {blocks : List AbsId} (nonempty : blocks ≠ [])
    (ordered : ∀ d ∈ blocks, ∀ d' ∈ blocks,
      analysed.Dom (some d) (some d') ∨ analysed.Dom (some d') (some d)) :
    ∃ last ∈ blocks, ∀ d ∈ blocks, analysed.Dom (some d) (some last) := by
  induction blocks with
  | nil => exact absurd rfl nonempty
  | cons b blocks ih =>
      by_cases single : blocks = []
      · refine ⟨b, List.mem_cons_self, fun d member => ?_⟩
        rw [single] at member
        rw [List.mem_singleton.mp member]
        exact dominates_refl _
      · obtain ⟨last, listed, all⟩ := ih single fun d member d' member' =>
          ordered d (List.mem_cons_of_mem _ member) d' (List.mem_cons_of_mem _ member')
        cases ordered b List.mem_cons_self last (List.mem_cons_of_mem _ listed) with
        | inl before =>
            refine ⟨last, List.mem_cons_of_mem _ listed, fun d member => ?_⟩
            cases List.mem_cons.mp member with
            | inl same => exact same ▸ before
            | inr later => exact all d later
        | inr after =>
            refine ⟨b, List.mem_cons_self, fun d member => ?_⟩
            cases List.mem_cons.mp member with
            | inl same => exact same ▸ dominates_refl _
            | inr later => exact (all d later).trans after

theorem Ordered.of_last {blocks : List AbsId}
    (inside : ∀ d ∈ blocks, some d ∈ analysed.cfg.contents) {result : Option CFNodeId}
    (last : Last analysed (blocks.map some) result) : Ordered analysed blocks := by
  intro d member
  refine ⟨inside d member, fun d' member' => ?_⟩
  cases result with
  | none =>
      have empty : blocks.map some = [] := last
      rw [List.map_eq_nil_iff.mp empty] at member
      cases member
  | some p =>
      obtain ⟨top, listed, rfl⟩ := List.mem_map.mp last.mem
      exact Dominates.comparable (sound.reachable _ (inside top listed))
        (last.2 _ (List.mem_map_of_mem member)) (last.2 _ (List.mem_map_of_mem member'))

theorem Ordered.scheduled {n : IrNode} {blocks : List AbsId} (ordered : Ordered analysed blocks)
    (within : ∀ d ∈ n.definitions, d ∈ blocks) (nonempty : blocks ≠ []) :
    ∃ result, scheduleNode analysed n = .ok result ∧
      ∀ p, result = some p → p ∈ analysed.cfg.contents := by
  obtain ⟨top, listed, all⟩ := exists_last nonempty fun d member => (ordered d member).2
  have inside := (ordered top listed).1
  obtain ⟨result, ran, above⟩ := scheduleNode_above sound n inside fun d member =>
    all d (within d member)
  exact ⟨result, ran, fun p same => dominator_inside sound inside (above p same)⟩

theorem Ordered.terminator {t : TerminatorNode}
    (ordered : Ordered analysed (IrNode.definitionsAll t.dependencies))
    (nonempty : IrNode.definitionsAll t.dependencies ≠ []) :
    ∃ result, scheduleInstruction analysed (.terminator t) = .ok result ∧
      ∀ p, result = some p → p ∈ analysed.cfg.contents := by
  obtain ⟨top, listed, all⟩ := exists_last nonempty fun d member => (ordered d member).2
  have inside := (ordered top listed).1
  obtain ⟨result, ran, -, above⟩ := scheduleOperands_spec sound inside
    (fun o member => scheduleNode_above sound o inside fun d defined =>
      all d (IrNode.mem_definitionsAll.mpr ⟨o, member, defined⟩)) none [] rfl nofun
  exact ⟨result, ran, fun p same => dominator_inside sound inside (above p same)⟩

end Place

/-! ## What is accepted -/

section Accept
variable {f : FunctionNode} {analysed : AnalysedCFG}

/-- The verification relies on these properties of the graph. -/
structure Verified (f : FunctionNode) (analysed : AnalysedCFG) : Prop where
  formed : f.Formed
  sound : analysed.Sound
  exact : analysed.tree.Exact analysed.cfg
  entry : analysed.cfg.entry = some f.self
  edge_iff : ∀ b c, some b ∈ analysed.cfg.contents →
    (analysed.cfg.Edge (some b) (some c) ↔ f.Names b c)
  real : ∀ v ∈ analysed.cfg.contents, ∃ b, v = some b

theorem newCfg_verified (formed : f.Formed)
    (built : newCfg f.controlFlow f.self structuredScopeCfgBuild = .ok analysed) :
    Verified f analysed := by
  obtain ⟨climbed, wellFormed, reachable, graph⟩ := newCfg_climbed rfl built
  have names_iff : ∀ b c, f.Names b c ↔
      ∃ t, f.controlFlow.terminator b = some t ∧ c ∈ t.targets := by
    intro b c
    unfold FunctionNode.Names Function.terminator
    rw [FunctionNode.controlFlow_get]
    cases f.get b with
    | none => simp
    | some abs => cases body : abs.body <;> simp [AbstractionNode.controlFlow, body]
  exact
    { formed := formed
      sound := newCfg_sound rfl built
      exact := newCfg_exact built rfl rfl rfl rfl
      entry := by
        obtain ⟨state, -, rest⟩ := bind_eq_ok.mp graph
        obtain ⟨_, -, rest⟩ := bind_eq_ok.mp rest
        rw [← pure_eq_ok.mp rest]
        rfl
      edge_iff := by
        intro b c inside
        rw [names_iff]
        constructor
        · exact buildCfg_within graph rfl
        · rintro ⟨t, ends, named⟩
          apply buildCfg_covers graph rfl rfl inside ends named
          obtain ⟨t', ends', named'⟩ := (names_iff b c).mpr ⟨t, ends, named⟩
          obtain ⟨abs, found, body⟩ := FunctionNode.bodyOf_eq ends'
          obtain ⟨block, isBlock, notFunction⟩ := formed.targets b abs t' found body c named'
          refine ⟨block.controlFlow, ?_, notFunction⟩
          rw [FunctionNode.controlFlow_get, isBlock]
          rfl
      real := by
        intro v inside
        obtain ⟨state, -, rest⟩ := bind_eq_ok.mp graph
        obtain ⟨_, -, rest⟩ := bind_eq_ok.mp rest
        rw [← pure_eq_ok.mp rest] at inside
        obtain ⟨b, -, same⟩ := List.mem_map.mp inside
        exact ⟨b, same.symm⟩ }

section Search
variable (verified : Verified f analysed)
include verified

theorem Verified.self_inside : some f.self ∈ analysed.cfg.contents := by
  apply verified.sound.inside
  rw [← verified.entry]
  exact reachable_root

/-- Everything in the graph is below the entry. -/
theorem Verified.below {p : CFNodeId} (inside : p ∈ analysed.cfg.contents) :
    isDominated analysed.cfg analysed.tree p (some f.self) = .ok true := by
  obtain ⟨answer, found, iff⟩ := verified.exact.2 p inside _ verified.self_inside
  rw [found, iff.mpr]
  intro visited walk
  exact verified.entry ▸ walk.root_mem

/-- A terminator depends on its own block. -/
theorem Verified.own_definition {b : AbsId} {t : TerminatorNode}
    (ends : f.InBody analysed b (.terminator t)) : b ∈ IrNode.definitionsAll t.dependencies :=
  IrNode.mem_definitionsAll.mpr ⟨t.mem, t.mem_dependencies,
    IrNode.root_mem_definitions (verified.formed.root ends)⟩

/-- A terminator that is scheduled is placed in the graph, at the last definition. -/
theorem Verified.placed {b : AbsId} {t : TerminatorNode} {place : Option CFNodeId}
    (ends : f.InBody analysed b (.terminator t))
    (scheduled : scheduleInstruction analysed (.terminator t) = .ok place) :
    Ordered analysed (IrNode.definitionsAll t.dependencies) ∧
      ∃ p, place = some p ∧ p ∈ analysed.cfg.contents := by
  obtain ⟨inside, last⟩ := scheduleOperands_last verified.exact
    (fun o _ => scheduleNode_last verified.exact o) none [] place nofun rfl scheduled
  refine ⟨Ordered.of_last verified.sound inside last, ?_⟩
  cases place with
  | none =>
      have empty : (IrNode.definitionsAll t.dependencies).map some = [] := last
      have own := verified.own_definition ends
      rw [List.map_eq_nil_iff.mp empty] at own
      cases own
  | some p =>
      obtain ⟨d, defined, rfl⟩ := List.mem_map.mp last.mem
      exact ⟨_, rfl, inside d defined⟩

/-- An accepted function has all its terminators scheduled. -/
theorem Verified.ordered_of_found {fuel : Nat} {set : List IrNode}
    (found : freeFrontier f analysed fuel f.self = .ok set) : f.DefinitionsOrdered analysed := by
  cases fuel with
  | zero => simp [freeFrontier] at found
  | succ fuel =>
      rw [freeFrontier] at found
      obtain ⟨start, isStart, found⟩ := bind_eq_ok.mp found
      unfold cfgLookup at isStart
      rw [if_pos verified.self_inside] at isStart
      obtain rfl := Except.ok.inj isStart
      have names : ∀ {b c}, some b ∈ analysed.cfg.contents →
          analysed.cfg.Edge (some b) (some c) → f.Names b c :=
        fun inside taken => (verified.edge_iff _ _ inside).mp taken
      cases body : (f.get f.self).bind AbstractionNode.body with
      | none =>
          intro b t ends
          obtain ⟨inside, last, isLast, -⟩ := FunctionNode.inBody_terminator.mp ends
          obtain ⟨visited, walk⟩ := verified.sound.reachable _ inside
          -- no walk leaves the entry
          have stuck : ∀ v visited, Walk analysed.cfg.Edge analysed.cfg.entry v visited →
              v = some f.self := by
            intro v visited walk
            induction walk with
            | start => exact verified.entry
            | @step q v visited before taken ih =>
                subst ih
                have insideV := verified.sound.inside _ ⟨_, before.step taken⟩
                obtain ⟨c, rfl⟩ := verified.real v insideV
                obtain ⟨own, isOwn, -⟩ := names verified.self_inside taken
                rw [body] at isOwn
                cases isOwn
          rw [Option.some.inj (stuck _ _ walk), body] at isLast
          cases isLast
      | some root =>
          rw [body] at found
          obtain ⟨state, visited, -⟩ := bind_eq_ok.mp found
          obtain ⟨swept, here⟩ := visitFreeFrontier_swept fuel _ _ _ visited
          have scheduled : ∀ m ∈ state.seen, ∃ place, scheduleInstruction analysed m = .ok place :=
            fun m member => (swept.handled m member List.not_mem_nil).scheduled
          -- what a terminator in a body leads to is met with it
          have spread : ∀ {b t o}, f.InBody analysed b (.terminator t) →
              .terminator t ∈ state.seen → o ∈ t.operands → o ∈ state.seen := by
            intro b t o ends member operand
            obtain ⟨place, isPlace⟩ := scheduled _ member
            obtain ⟨-, p, rfl, inside⟩ := verified.placed ends isPlace
            exact (swept.handled _ member List.not_mem_nil).operands o
              ⟨p, isPlace, verified.below inside, operand⟩
          have met : ∀ v visited, Walk analysed.cfg.Edge analysed.cfg.entry v visited →
              ∀ b, v = some b → ∀ last, (f.get b).bind AbstractionNode.body = some last →
                .terminator last ∈ state.seen := by
            intro v visited walk
            induction walk with
            | start =>
                intro b same last isLast
                rw [verified.entry] at same
                obtain rfl := Option.some.inj same
                obtain rfl := Option.some.inj (body.symm.trans isLast)
                exact here
            | @step q v visited before taken ih =>
                rintro b rfl last isLast
                have insideQ := verified.sound.inside _ ⟨_, before⟩
                have insideB := verified.sound.inside _ ⟨_, before.step taken⟩
                obtain ⟨a, rfl⟩ := verified.real q insideQ
                obtain ⟨own, isOwn, target⟩ := names insideQ taken
                have ownMet := ih a rfl own isOwn
                have ownBody := FunctionNode.Names.inBody isOwn insideQ
                have blockMet : .block b ∈ state.seen := by
                  cases TerminatorNode.mem_targets.mp target with
                  | inl direct => exact spread ownBody ownMet direct
                  | inr inJump =>
                      obtain ⟨j, isJump, operand⟩ := inJump
                      exact spread (ownBody.jump isJump) (spread ownBody ownMet isJump) operand
                obtain ⟨abs, isAbs, isBody⟩ := FunctionNode.bodyOf_eq isLast
                apply (swept.handled _ blockMet List.not_mem_nil).operands
                refine ⟨_, block_placed insideB, verified.below insideB, ?_⟩
                unfold FunctionNode.operands
                simp only [isAbs]
                exact List.mem_append_right _ (by simp [isBody])
          intro b t ends
          obtain ⟨inside, last, isLast, which⟩ := FunctionNode.inBody_terminator.mp ends
          obtain ⟨visited, walk⟩ := verified.sound.reachable _ inside
          have lastMet := met _ visited walk b rfl last isLast
          have tMet : .terminator t ∈ state.seen := by
            cases which with
            | inl same => exact same ▸ lastMet
            | inr isJump =>
                exact spread (FunctionNode.Names.inBody isLast inside) lastMet isJump
          obtain ⟨place, isPlace⟩ := scheduled _ tMet
          exact (verified.placed ends isPlace).1

/-- The nodes that a search of the function can meet. -/
def Searchable (f : FunctionNode) (analysed : AnalysedCFG) : BodyNode → Prop
  | .terminator t => ∃ b, f.InBody analysed b (.terminator t)
  | .block c => f.InBody analysed c (.block c)
  | .value n => (∃ b, f.InBody analysed b (.value n)) ∨
      ∃ b abs, some b ∈ analysed.cfg.contents ∧ f.get b = some abs ∧ n ∈ abs.params

theorem Searchable.operand {m o : BodyNode} (searchable : Searchable f analysed m)
    (operand : o ∈ f.operands m) : Searchable f analysed o := by
  cases m with
  | terminator t =>
      obtain ⟨b, ends⟩ := searchable
      have listed : o ∈ t.operands := operand
      cases o with
      | value n =>
          exact Or.inl ⟨b, ends.dependency (TerminatorNode.value_mem_operands.mp listed)⟩
      | terminator j => exact ⟨b, ends.jump listed⟩
      | block c =>
          have named := ends.named listed
          have insideC := (verified.edge_iff b c ends.inside).mpr named
          obtain ⟨t', isLast, target⟩ := named
          obtain ⟨abs, found, body⟩ := FunctionNode.bodyOf_eq isLast
          obtain ⟨block, isBlock, notFunction⟩ :=
            verified.formed.targets b abs t' found body c target
          have reaches := (verified.sound.reachable _ ends.inside).step insideC
          exact .block (verified.sound.inside _ reaches) isBlock notFunction
  | block c =>
      have inside := FunctionNode.InBody.inside searchable
      obtain ⟨abs, found, isParam | isBody⟩ := mem_blockOperands operand
      · obtain ⟨p, member, rfl⟩ := isParam
        exact Or.inr ⟨c, abs, inside, found, member⟩
      · obtain ⟨t, body, rfl⟩ := isBody
        exact ⟨c, .terminator inside found body⟩
  | value n =>
      obtain ⟨k, isOperand, rfl⟩ := List.mem_map.mp operand
      obtain ⟨b, body⟩ | ⟨b, abs, inside, found, member⟩ := searchable
      · exact Or.inl ⟨b, body.operand isOperand⟩
      · obtain ⟨id, rfl⟩ := verified.formed.params b abs found n member
        cases isOperand

omit verified in
theorem Searchable.listed {m : BodyNode}
    (searchable : Searchable f analysed m) : m ∈ f.bodyNodes := by
  cases m with
  | terminator t =>
      obtain ⟨b, ends⟩ := searchable
      exact ends.mem_bodyNodes
  | block c => exact FunctionNode.InBody.mem_bodyNodes searchable
  | value n =>
      obtain ⟨b, body⟩ | ⟨b, abs, -, found, member⟩ := searchable
      · exact body.mem_bodyNodes
      · rw [FunctionNode.mem_bodyNodes]
        exact ⟨b, abs, FunctionNode.mem_of_get found, Or.inr (Or.inl ⟨n, member, rfl⟩)⟩

omit verified in
/-- The definitions that a value depends on are among those of a terminator. -/
theorem FunctionNode.InBody.definitions {b : AbsId} {n : IrNode}
    (body : f.InBody analysed b (.value n)) : ∃ t, f.InBody analysed b (.terminator t) ∧
      ∀ d ∈ n.definitions, d ∈ IrNode.definitionsAll t.dependencies := by
  generalize isValue : BodyNode.value n = node at body
  induction body generalizing n with
  | block _ _ _ => cases isValue
  | terminator _ _ _ => cases isValue
  | jump _ _ _ => cases isValue
  | @dependency t n' ends uses _ =>
      obtain rfl := BodyNode.value.inj isValue
      exact ⟨t, ends, fun d defined => IrNode.mem_definitionsAll.mpr ⟨n, uses, defined⟩⟩
  | @operand user o _ uses ih =>
      obtain rfl := BodyNode.value.inj isValue
      obtain ⟨t, ends, within⟩ := ih rfl
      refine ⟨t, ends, fun d defined => within d ?_⟩
      cases user with
      | param id abs => cases uses
      | absMem id abs => cases uses
      | pure id tag operands =>
          unfold IrNode.definitions
          exact IrNode.mem_definitionsAll.mpr ⟨n, uses, defined⟩
      | instr id tag mem operands =>
          unfold IrNode.definitions
          cases List.mem_cons.mp uses with
          | inl same => exact List.mem_append_left _ (same ▸ defined)
          | inr listed =>
              exact List.mem_append_right _ (IrNode.mem_definitionsAll.mpr ⟨n, listed, defined⟩)

theorem Searchable.scheduled (ordered : f.DefinitionsOrdered analysed) {m : BodyNode}
    (searchable : Searchable f analysed m) : ∃ place, scheduleInstruction analysed m = .ok place ∧
      ∀ p, place = some p → p ∈ analysed.cfg.contents := by
  cases m with
  | terminator t =>
      obtain ⟨b, ends⟩ := searchable
      apply (ordered b t ends).terminator verified.sound
      exact List.ne_nil_of_mem (verified.own_definition ends)
  | block c =>
      have inside := FunctionNode.InBody.inside searchable
      refine ⟨_, block_placed inside, ?_⟩
      rintro p same
      exact Option.some.inj same ▸ inside
  | value n =>
      obtain ⟨b, body⟩ | ⟨b, abs, inside, found, member⟩ := searchable
      · obtain ⟨t, ends, within⟩ := body.definitions
        exact (ordered b t ends).scheduled verified.sound within
          (List.ne_nil_of_mem (verified.own_definition ends))
      · obtain ⟨id, rfl⟩ := verified.formed.params b abs found n member
        refine ⟨_, scheduleOwn_spec inside, ?_⟩
        rintro p same
        exact Option.some.inj same ▸ inside

/-- A function with ordered definitions is accepted. -/
theorem Verified.found_of_ordered (ordered : f.DefinitionsOrdered analysed) :
    ∃ fuel, freeFrontier f analysed fuel f.self = .ok [] := by
  have inside := verified.self_inside
  cases body : (f.get f.self).bind AbstractionNode.body with
  | none =>
      refine ⟨1, ?_⟩
      rw [freeFrontier]
      unfold cfgLookup
      rw [if_pos inside]
      simp only [bind, Except.bind, body]
      rfl
  | some root =>
      have start : Searchable f analysed (.terminator root) :=
        ⟨f.self, FunctionNode.Names.inBody body inside⟩
      -- every place is below the entry
      have answers : ∀ m, Searchable f analysed m → ∃ place,
          scheduleInstruction analysed m = .ok place ∧ ∀ p, place = some p →
            isDominated analysed.cfg analysed.tree p (some f.self) = .ok true := by
        intro m searchable
        obtain ⟨place, scheduled, within⟩ := searchable.scheduled verified ordered
        exact ⟨place, scheduled, fun p same => verified.below (within p same)⟩
      have enough : Search.left f.bodyNodes [] + 0 < Search.left f.bodyNodes [] + 1 :=
        Nat.lt_succ_self _
      obtain ⟨state, ran⟩ := visitFreeFrontier_returns
        (fun m o searchable step => searchable.operand verified step.choose_spec.2.2)
        (fun m searchable => searchable.listed)
        (fun m searchable => by
          obtain ⟨place, scheduled, below⟩ := answers m searchable
          exact ⟨place, scheduled, fun p same => ⟨true, below p same⟩⟩)
        (fun c p searchable placed outside => by
          obtain ⟨place, scheduled, below⟩ := answers _ searchable
          obtain rfl := Except.ok.inj (placed.symm.trans scheduled)
          rw [below p rfl] at outside
          cases outside)
        (Search.left f.bodyNodes [] + 1) (.terminator root) ⟨[], []⟩ start enough
      obtain ⟨swept, here⟩ := visitFreeFrontier_swept _ _ _ _ ran
      have searchable : ∀ m ∈ state.seen, Searchable f analysed m := by
        intro m member
        have reached := swept.reached m member List.not_mem_nil
        induction reached with
        | refl => exact start
        | @tail k o path step ih =>
            have kMember : k ∈ state.seen :=
              (swept.seen_iff here k).mpr path
            exact (ih kMember).operand verified step.choose_spec.2.2
      have empty : state.frontier = [] := by
        rw [List.eq_nil_iff_forall_not_mem]
        intro v member
        obtain old | ⟨m, seen, -, p, placed, outside, -⟩ := (swept.frontier v).mp member
        · cases old
        · obtain ⟨place, scheduled, below⟩ := answers m (searchable m seen)
          obtain rfl := Except.ok.inj (placed.symm.trans scheduled)
          rw [below p rfl] at outside
          cases outside
      refine ⟨Search.left f.bodyNodes [] + 2, ?_⟩
      rw [freeFrontier]
      unfold cfgLookup
      rw [if_pos inside]
      simp only [bind, Except.bind, body, ran, empty]
      rfl

end Search

end Accept

/-! ## Scopes -/

section Scopes
variable {f : FunctionNode} {analysed : AnalysedCFG}

theorem FunctionNode.wellScoped_iff : f.WellScoped analysed ↔
    ∀ b d, f.UsesAt analysed b d → analysed.Dom (some d) (some b) := by
  unfold FunctionNode.WellScoped
  simp only [IrNode.scopedAt_iff]
  constructor
  · rintro well b d ⟨c, t, ends, use⟩
    obtain ⟨n, member, inner⟩ := IrNode.mem_usesAll.mp use
    exact well c t ends n member b d inner
  · intro each c t ends n member b d use
    exact each b d ⟨c, t, ends, IrNode.mem_usesAll.mpr ⟨n, member, use⟩⟩

/-- What is in scope in a block has its definitions above it. -/
theorem IrNode.ScopedAt.above {n : IrNode} : ∀ {c : AbsId},
    n.ScopedAt (fun a b => analysed.Dom (some a) (some b)) c →
    ∀ d ∈ n.definitions, analysed.Dom (some d) (some c) := by
  have all : ∀ {operands : List IrNode}, (∀ o ∈ operands, ∀ {c : AbsId},
      o.ScopedAt (fun a b => analysed.Dom (some a) (some b)) c →
      ∀ d ∈ o.definitions, analysed.Dom (some d) (some c)) → ∀ {c : AbsId},
      IrNode.scopedAll (fun a b => analysed.Dom (some a) (some b)) c operands →
      ∀ d ∈ IrNode.definitionsAll operands, analysed.Dom (some d) (some c) := by
    intro operands ih c scope d defined
    obtain ⟨o, member, inner⟩ := IrNode.mem_definitionsAll.mp defined
    exact ih o member ((IrNode.scopedAll_iff _ _ _).mp scope o member) d inner
  induction n using IrNode.inductOn with
  | param id abs =>
      intro c scope d defined
      exact List.mem_singleton.mp defined ▸ scope
  | absMem id abs =>
      intro c scope d defined
      exact List.mem_singleton.mp defined ▸ scope
  | pure id tag operands ih =>
      intro c scope d defined
      unfold IrNode.ScopedAt at scope
      unfold IrNode.definitions at defined
      exact all ih scope d defined
  | instr id tag mem operands ihMem ih =>
      intro c scope d defined
      unfold IrNode.ScopedAt at scope
      unfold IrNode.definitions at defined
      cases List.mem_append.mp defined with
      | inl ofMem => exact ihMem scope.1 d ofMem
      | inr ofOperands =>
          have atRoot := all ih scope.2 d ofOperands
          cases root : mem.root with
          | none =>
              rw [root] at atRoot
              exact atRoot
          | some h =>
              rw [root] at atRoot
              exact atRoot.trans (ihMem scope.1 h (IrNode.root_mem_definitions root))

variable (verified : Verified f analysed)
include verified

theorem Verified.ordered_of_wellScoped (well : f.WellScoped analysed) :
    f.DefinitionsOrdered analysed := by
  intro b t ends d defined
  have above : ∀ d ∈ IrNode.definitionsAll t.dependencies, analysed.Dom (some d) (some b) := by
    intro d defined
    obtain ⟨n, member, inner⟩ := IrNode.mem_definitionsAll.mp defined
    exact (well b t ends n member).above d inner
  refine ⟨dominator_inside verified.sound ends.inside (above d defined), fun d' defined' => ?_⟩
  exact Dominates.comparable (verified.sound.reachable _ ends.inside) (above d defined)
    (above d' defined')

/-- The user and the definition of a use are among the definitions of a terminator. -/
theorem Verified.use_definitions {b d : AbsId} (use : f.UsesAt analysed b d) :
    ∃ c t, f.InBody analysed c (.terminator t) ∧ b ∈ IrNode.definitionsAll t.dependencies ∧
      d ∈ IrNode.definitionsAll t.dependencies := by
  obtain ⟨c, t, ends, listed⟩ := use
  obtain ⟨n, member, inner⟩ := IrNode.mem_usesAll.mp listed
  obtain ⟨defined, user⟩ := n.uses_definitions c b d inner
  refine ⟨c, t, ends, ?_, IrNode.mem_definitionsAll.mpr ⟨n, member, defined⟩⟩
  cases user with
  | inl same => exact same ▸ verified.own_definition ends
  | inr inside => exact IrNode.mem_definitionsAll.mpr ⟨n, member, inside⟩

theorem Verified.wellScoped_iff : f.WellScoped analysed ↔
    f.DefinitionsOrdered analysed ∧ f.NothingBelow analysed := by
  constructor
  · intro well
    have ordered := verified.ordered_of_wellScoped well
    refine ⟨ordered, fun b d use below => ?_⟩
    obtain ⟨c, t, ends, user, -⟩ := verified.use_definitions use
    have inside := (ordered c t ends b user).1
    have above := FunctionNode.wellScoped_iff.mp well b d use
    exact Option.some.inj (Dominates.antisymm (verified.sound.reachable _ inside) below above)
  · rintro ⟨ordered, nothing⟩
    rw [FunctionNode.wellScoped_iff]
    intro b d use
    obtain ⟨c, t, ends, user, defined⟩ := verified.use_definitions use
    cases (ordered c t ends d defined).2 b user with
    | inl above => exact above
    | inr below =>
        rw [nothing b d use below]
        exact dominates_refl _

theorem Verified.accepted_iff :
    (∃ fuel, verifyCfg fuel f analysed = .ok ()) ↔ f.DefinitionsOrdered analysed := by
  constructor
  · rintro ⟨fuel, accepted⟩
    unfold verifyCfg at accepted
    cases found : freeFrontier f analysed fuel f.self with
    | error e =>
        rw [found] at accepted
        cases accepted
    | ok set => exact verified.ordered_of_found found
  · intro ordered
    obtain ⟨fuel, found⟩ := verified.found_of_ordered ordered
    refine ⟨fuel, ?_⟩
    unfold verifyCfg
    rw [found]

end Scopes

/-- The functions that are accepted are those with all uses dominated by their definitions,
if and only if no block of a function with ordered definitions uses what is defined below. -/
theorem verifyScoping_exact_iff (f : FunctionNode) (analysed : AnalysedCFG)
    (built : newCfg f.controlFlow f.self structuredScopeCfgBuild = .ok analysed)
    (formed : f.Formed) :
    ((∃ fuel, verifyCfg fuel f analysed = .ok ()) ↔ f.WellScoped analysed) ↔
      (f.DefinitionsOrdered analysed → f.NothingBelow analysed) := by
  have verified := newCfg_verified formed built
  rw [verified.accepted_iff, verified.wellScoped_iff]
  constructor
  · intro same ordered
    exact (same.mp ordered).2
  · intro nothing
    constructor
    · exact fun ordered => ⟨ordered, nothing ordered⟩
    · exact fun both => both.1

theorem verifyScoping_exact_twoEntries : ∃ analysed,
    newCfg twoEntries.controlFlow twoEntries.self structuredScopeCfgBuild = .ok analysed ∧
    (((∃ fuel, verifyCfg fuel twoEntries analysed = .ok ()) ↔ twoEntries.WellScoped analysed) ↔
      (twoEntries.DefinitionsOrdered analysed → twoEntries.NothingBelow analysed)) := by
  have summary : (newCfg twoEntries.controlFlow 0 structuredScopeCfgBuild).map
      (fun analysed => analysed.cfg.entry) = .ok (some 0) := by
    decide +kernel
  cases built : newCfg twoEntries.controlFlow 0 structuredScopeCfgBuild with
  | error e =>
      rw [built] at summary
      cases summary
  | ok analysed =>
      exact ⟨analysed, built, verifyScoping_exact_iff twoEntries analysed built
        twoEntries_formed⟩

/-- A function that jumps to a block with the parameter of that block. -/
def parameterBeforeBlock : FunctionNode where
  self := 0
  abstractions := [
    (0, ⟨true, [], some (.jump ⟨.absMem 10 0, 1, [.param 11 1]⟩)⟩),
    (1, ⟨false, [.param 11 1], some (.fnRet (.absMem 12 1) [.param 11 1])⟩)]

/-- The use before the definition goes unnoticed. -/
theorem verifyScoping_misses_use : ∃ analysed,
    newCfg parameterBeforeBlock.controlFlow parameterBeforeBlock.self structuredScopeCfgBuild =
      .ok analysed ∧
    (∃ fuel, verifyScoping fuel [parameterBeforeBlock] = .ok ()) ∧
    ¬ parameterBeforeBlock.WellScoped analysed := by
  have summary : (newCfg parameterBeforeBlock.controlFlow 0 structuredScopeCfgBuild).map
      (fun analysed => (analysed.cfg.entry, analysed.cfg.contents,
        (verifyCfg 20 parameterBeforeBlock analysed).isOk)) =
      .ok (some 0, [some 1, some 0], true) := by
    decide +kernel
  cases built : newCfg parameterBeforeBlock.controlFlow 0 structuredScopeCfgBuild with
  | error e =>
      rw [built] at summary
      cases summary
  | ok analysed =>
      rw [built] at summary
      simp only [Except.map, Except.ok.injEq, Prod.mk.injEq] at summary
      obtain ⟨entry, contents, accepted⟩ := summary
      refine ⟨analysed, built, ⟨20, ?_⟩, ?_⟩
      · rw [verifyScoping_eq_ok]
        intro f member
        rw [List.mem_singleton.mp member]
        refine ⟨analysed, built, ?_⟩
        cases ran : verifyCfg 20 parameterBeforeBlock analysed with
        | error e =>
            rw [ran] at accepted
            cases accepted
        | ok done => rfl
      · intro well
        have inside : some 0 ∈ analysed.cfg.contents := by simp [contents]
        have ends : parameterBeforeBlock.InBody analysed 0
            (.terminator (.jump ⟨.absMem 10 0, 1, [.param 11 1]⟩)) :=
          .terminator inside rfl rfl
        have used := well 0 _ ends (.param 11 1) (by decide)
        -- the walk that ends at the entry has not met the block
        have onWalk := used [some 0] (entry ▸ Walk.start)
        simp at onWalk

end Shady
