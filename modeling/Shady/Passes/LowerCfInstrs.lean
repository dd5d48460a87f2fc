import Shady.Analysis.LexicalExact
import Shady.Library.Search

/-!
# Merges as joins

Model of `src/shady/passes/lower_cf_instrs.c`, as far as it decides which token a merge joins
on. The pass looks for the construct of a merge among the dominators of its block, where a
construct that stands before the merge in the same body is found first.
-/

set_option autoImplicit false

namespace Shady
open Dominance Fallible

/-- The tokens that the pass makes for the construct that a block ends in. -/
inductive JoinToken
  | ifJoin (construct : AbsId)
  | loopBreakPoint (construct : AbsId)
  | loopContinuePoint (construct : AbsId)
  deriving DecidableEq

inductive LowerCfError
  | scoping
  | assertion (condition : String)
  /-- A read through a NULL pointer. -/
  | nullPointer
  /-- A pointer to something that is not an abstraction of the function. -/
  | dangling
  /-- The bound on the recursion or on a loop of the model is used up. -/
  | outOfFuel
  deriving DecidableEq

/-- What the rewriting has done, with the joins that it made of merges. The constructs that key
    `structured_join_tokens` stand with the blocks that they end. -/
structure LowerCfState where
  processed : List AbsId
  structuredJoinTokens : List (AbsId × List JoinToken)
  joins : List (AbsId × JoinToken)

namespace Terminator

def isSelection : Terminator → Bool
  | .ifInstr _ _ _ => true
  | .matchInstr _ _ _ => true
  | _ => false

def isLoop : Terminator → Bool
  | .loopInstr _ _ => true
  | _ => false

/-- The kind of construct that is searched for, how many tokens it has, and which is taken. -/
def mergeRule : Terminator → Option ((Terminator → Bool) × Nat × Nat)
  | .mergeSelection => some (isSelection, 1, 0)
  | .mergeContinue => some (isLoop, 2, 1)
  | .mergeBreak => some (isLoop, 2, 0)
  | _ => none

/-- The tokens of a construct; there are none for a `match`. -/
def tokensAt (construct : AbsId) : Terminator → List (AbsId × List JoinToken)
  | .ifInstr _ _ _ => [(construct, [.ifJoin construct])]
  | .loopInstr _ _ => [(construct, [.loopBreakPoint construct, .loopContinuePoint construct])]
  | _ => []

/-- The blocks that are rewritten with a terminator, in order. -/
def rewritten (t : Terminator) : List AbsId := t.jumps.map Jump.target ++ t.structuralTargets

end Terminator

section Pass
variable (f : Function) (tree : Domtree)

/-- The loop over the dominators. -/
def dominatingConstruct (kind : Terminator → Bool) : Nat → Option CFNodeId → Except LowerCfError AbsId
  | 0, _ => .error .outOfFuel
  | _ + 1, none => .error .scoping
  | _ + 1, some none => .error .nullPointer
  | fuel + 1, some (some dom) =>
      match f.terminator dom with
      | none => .error .nullPointer
      | some body =>
          if kind body then .ok dom else dominatingConstruct kind fuel (tree.idom (some dom))

/-- The token that a merge joins on. -/
def lowerMerge (size : Nat) (tokens : List (AbsId × List JoinToken)) (b : AbsId)
    (rule : (Terminator → Bool) × Nat × Nat) : Except LowerCfError JoinToken := do
  let construct ← dominatingConstruct f tree rule.1 size (tree.idom (some b))
  match tokens.lookup construct with
  | none => .error (.assertion "jps")
  | some jps =>
      if jps.length = rule.2.1 then
        match jps[rule.2.2]? with
        | some jp => .ok jp
        | none => .error (.assertion "jp")
      else .error (.assertion "jps->count")

/-- `process_node` on the terminator of a block. -/
def lowerTerminator (size : Nat) (b : AbsId) (t : Terminator) (state : LowerCfState) :
    Except LowerCfError LowerCfState :=
  let state := { state with structuredJoinTokens := t.tokensAt b ++ state.structuredJoinTokens }
  match t.mergeRule with
  | none => .ok state
  | some rule => do
      let jp ← lowerMerge f tree size state.structuredJoinTokens b rule
      return { state with joins := (b, jp) :: state.joins }

/-- The rewriting of a block, with the blocks that it leads to. -/
def lowerBlock (size : Nat) : Nat → AbsId → LowerCfState → Except LowerCfError LowerCfState
  | 0, _, _ => .error .outOfFuel
  | fuel + 1, b, state =>
      if b ∈ state.processed then .ok state
      else
        match f.get b with
        | none => .error .dangling
        | some abs =>
            let state := { state with processed := b :: state.processed }
            match abs.body with
            | none => .ok state
            | some t => do
                let state ← lowerTerminator f tree size b t state
                t.rewritten.foldlM (fun state c => lowerBlock size fuel c state) state

end Pass

/-- The pass on a function, with its graph. -/
def lowerCfInstrs (f : Function) (result : AnalysedCFG) : Except LowerCfError LowerCfState :=
  lowerBlock f result.tree result.cfg.size (f.abstractions.length + 1) f.self ⟨[], [], []⟩

/-! ## What a merge should join on -/

namespace Function
variable (f : Function) (scope : AbsId → List Frame)

/-- The construct that a block ends in is the innermost one of a merge's kind around a block. -/
structure Innermost (b : AbsId) (kind : Frame → Bool) (construct : AbsId) : Prop where
  innermost : ∃ frame, (scope b).find? kind = some frame ∧
    ∃ t, f.terminator construct = some t ∧ f.frame t = some frame

/-- The token of a construct that a merge stands for. -/
def tokenFor : Terminator → AbsId → Option JoinToken
  | .mergeSelection, construct => some (.ifJoin construct)
  | .mergeContinue, construct => some (.loopContinuePoint construct)
  | .mergeBreak, construct => some (.loopBreakPoint construct)
  | _, _ => none

/-- A block of the function that is written out: it follows from the function's own by jumps,
    bodies and tails. -/
def Written (b : AbsId) : Prop :=
  Relation.ReflTransGen (fun a c => ∃ t, f.terminator a = some t ∧ c ∈ t.rewritten) f.self b

/-- The pass succeeds, and every merge becomes a join on the token of the innermost construct
    of its kind around it. -/
def MergesBound (result : AnalysedCFG) : Prop :=
  ∃ state, lowerCfInstrs f result = .ok state ∧
    ∀ b t kind, f.Written b → f.terminator b = some t → t.merges = some kind →
      ∃ construct token, f.Innermost scope b kind construct ∧ tokenFor t construct = some token ∧
        ∀ token', (b, token') ∈ state.joins ↔ token' = token

/-- The innermost construct around a merge has tokens and dominates it, and no construct of the
    kind that has been left again comes between. Dominators are computed in the graph where a
    block with a tail edge is only entered from its first predecessor. -/
structure NoneLeftBetween (result : AnalysedCFG) (b : AbsId) (kind : Frame → Bool) (construct : AbsId) : Prop where
  tokens : ∀ cases defaultCase tail, f.terminator construct ≠ some (.matchInstr cases defaultCase tail)
  dominates : StrictlyDominates (result.cfg.trimmed result.rpo).Edge result.cfg.entry (some construct) (some b)
  noneLeft : ∀ left t frame, f.terminator left = some t → f.frame t = some frame → kind frame = true →
    StrictlyDominates (result.cfg.trimmed result.rpo).Edge result.cfg.entry (some construct) (some left) →
    ¬ StrictlyDominates (result.cfg.trimmed result.rpo).Edge result.cfg.entry (some left) (some b)

end Function

/-! ## The search among the dominators -/

section Climb
variable {f : Function} {tree : Domtree} {kind : Terminator → Bool}

/-- The node is a block that ends in a construct of the kind. -/
def Function.EndsIn (f : Function) (kind : Terminator → Bool) (n : CFNodeId) : Prop :=
  ∃ block t, n = some block ∧ f.terminator block = some t ∧ kind t = true

/-- The search ends at the nearest construct of the kind above. -/
theorem dominatingConstruct_iff {rank : CFNodeId → Nat} (lower : ∀ v p, tree.idom v = some p → rank p < rank v)
    (fuel : Nat) : ∀ x, (∀ d, Above tree.idom x d → ∃ block t, d = some block ∧ f.terminator block = some t) →
    rank x < fuel → ∀ c, (dominatingConstruct f tree kind fuel (some x) = .ok c ↔
      f.EndsIn kind (some c) ∧ Above tree.idom x (some c) ∧
        ∀ d, f.EndsIn kind d → Above tree.idom x d → Above tree.idom d (some c) → d = some c) := by
  have rank_le : ∀ {v a}, Above tree.idom v a → rank a ≤ rank v := by
    intro v a above
    induction above with
    | refl => exact Nat.le_refl _
    | tail _ next ih => exact Nat.le_trans (Nat.le_of_lt (lower _ _ next)) ih
  induction fuel with
  | zero => exact fun _ _ small => absurd small (Nat.not_lt_zero _)
  | succ fuel ih =>
      intro x ends small c
      obtain ⟨block, t, rfl, isEnd⟩ := ends x (Above.refl x)
      rw [dominatingConstruct]
      simp only [isEnd]
      by_cases isKind : kind t = true
      · have here : f.EndsIn kind (some block) := ⟨block, t, rfl, isEnd, isKind⟩
        rw [if_pos isKind]
        constructor
        · intro same
          obtain rfl : block = c := Except.ok.inj same
          refine ⟨here, Above.refl _, fun d _ up down => ?_⟩
          cases (above_iff (some block) d).mp up with
          | inl same => exact same
          | inr further =>
              obtain ⟨p, next, rest⟩ := further
              have less := lower _ _ next
              have back := rank_le down
              have forth := rank_le rest
              omega
        · intro nearest
          obtain ⟨-, above, first⟩ := nearest
          rw [Option.some.inj (first (some block) here (Above.refl _) above)]
      · rw [if_neg isKind]
        have apart : ∀ d, f.EndsIn kind d → d ≠ some block := by
          intro d ofKind same
          obtain ⟨block', t', isBlock, isEnd', isKind'⟩ := ofKind
          obtain rfl : block' = block := Option.some.inj (isBlock.symm.trans same)
          rw [isEnd] at isEnd'
          cases isEnd'
          exact isKind isKind'
        cases next : tree.idom (some block) with
        | none =>
            have stuck : dominatingConstruct f tree kind fuel none ≠ .ok c := by
              cases fuel <;> nofun
            refine iff_of_false stuck fun nearest => ?_
            cases (above_iff (some block) (some c)).mp nearest.2.1 with
            | inl same => exact apart _ nearest.1 same
            | inr further =>
                obtain ⟨p, next', -⟩ := further
                rw [next] at next'
                cases next'
        | some p =>
            have less := lower _ _ next
            have step : ∀ {d}, Above tree.idom p d → Above tree.idom (some block) d := fun above => above.step next
            have back : ∀ {d}, f.EndsIn kind d → Above tree.idom (some block) d → Above tree.idom p d := by
              intro d isEnd above
              cases (above_iff (some block) d).mp above with
              | inl same => exact absurd same (apart d isEnd)
              | inr further =>
                  obtain ⟨p', next', rest⟩ := further
                  rw [next] at next'
                  cases next'
                  exact rest
            rw [ih p (fun d above => ends d (step above)) (by omega) c]
            constructor
            · intro nearest
              exact ⟨nearest.1, step nearest.2.1, fun d isEnd up down => nearest.2.2 d isEnd (back isEnd up) down⟩
            · intro nearest
              exact ⟨nearest.1, back nearest.1 nearest.2.1, fun d isEnd up down => nearest.2.2 d isEnd (step up) down⟩

end Climb

/-! ## What the rewriting leaves behind -/

section Rewriting
variable {f : Function} {tree : Domtree} {size : Nat} {state after : LowerCfState} {b : AbsId} {t : Terminator}

/-- A token that a merge joined on was found at the nearest construct of its kind. -/
def JoinedAt (f : Function) (tree : Domtree) (size : Nat) (b : AbsId) (token : JoinToken) : Prop :=
  ∃ t rule construct tc jps, f.terminator b = some t ∧ t.mergeRule = some rule ∧
    dominatingConstruct f tree rule.1 size (tree.idom (some b)) = .ok construct ∧
    f.terminator construct = some tc ∧ tc.tokensAt construct = [(construct, jps)] ∧
    jps.length = rule.2.1 ∧ jps[rule.2.2]? = some token

/-- The dictionary has the tokens of the blocks that were processed, and their merges are joins. -/
structure LowerCfState.Consistent (f : Function) (tree : Domtree) (size : Nat) (state : LowerCfState) : Prop where
  known : ∀ c jps, state.structuredJoinTokens.lookup c = some jps ↔
    c ∈ state.processed ∧ ∃ t, f.terminator c = some t ∧ t.tokensAt c = [(c, jps)]
  joins : ∀ b token, (b, token) ∈ state.joins → b ∈ state.processed ∧ JoinedAt f tree size b token
  joined : ∀ b ∈ state.processed, ∀ t rule, f.terminator b = some t → t.mergeRule = some rule →
    ∃ token, (b, token) ∈ state.joins

/-- What was processed in addition has its blocks processed, too. -/
structure LowerCfState.Grown (f : Function) (before after : LowerCfState) : Prop where
  subset : before.processed ⊆ after.processed
  closed : ∀ b ∈ after.processed, b ∉ before.processed → ∀ t, f.terminator b = some t →
    ∀ c ∈ t.rewritten, c ∈ after.processed

theorem tokensAt_cases (t : Terminator) (c : AbsId) :
    t.tokensAt c = [] ∨ ∃ jps, t.tokensAt c = [(c, jps)] := by
  cases t with
  | ifInstr ifTrue ifFalse tail => exact .inr ⟨_, rfl⟩
  | loopInstr body tail => exact .inr ⟨_, rfl⟩
  | _ => exact .inl rfl

theorem lookup_tokensAt (t : Terminator) (b c : AbsId) (tokens : List (AbsId × List JoinToken))
    (jps : List JoinToken) (fresh : tokens.lookup b = none) :
    (t.tokensAt b ++ tokens).lookup c = some jps ↔
      (c = b ∧ t.tokensAt b = [(b, jps)]) ∨ tokens.lookup c = some jps := by
  cases tokensAt_cases t b with
  | inl none =>
      rw [none, List.nil_append]
      exact (or_iff_right fun both => nomatch both.2).symm
  | inr one =>
      obtain ⟨own, one⟩ := one
      rw [one, List.singleton_append, List.lookup_cons]
      by_cases same : c = b
      · rw [same, beq_self_eq_true, fresh]
        simp
      · rw [beq_eq_false_iff_ne.mpr same]
        simp [same]

theorem LowerCfState.Consistent.fresh (consistent : state.Consistent f tree size) (new : b ∉ state.processed) :
    state.structuredJoinTokens.lookup b = none := by
  cases found : state.structuredJoinTokens.lookup b with
  | none => rfl
  | some jps => exact absurd ((consistent.known b jps).mp found).1 new

theorem lowerMerge_ok (consistent : state.Consistent f tree size) {rule : (Terminator → Bool) × Nat × Nat}
    {token : JoinToken} (isEnd : f.terminator b = some t) (isMerge : t.mergeRule = some rule)
    (ran : lowerMerge f tree size state.structuredJoinTokens b rule = .ok token) : JoinedAt f tree size b token := by
  obtain ⟨construct, found, ran⟩ := bind_eq_ok.mp ran
  cases known : state.structuredJoinTokens.lookup construct with
  | none =>
      rw [known] at ran
      cases ran
  | some jps =>
      obtain ⟨-, tc, isEndC, own⟩ := (consistent.known construct jps).mp known
      simp only [known] at ran
      split_ifs at ran with count
      cases taken : jps[rule.2.2]? with
      | none =>
          rw [taken] at ran
          cases ran
      | some jp =>
          rw [taken] at ran
          cases ran
          exact ⟨t, rule, construct, tc, jps, isEnd, isMerge, found, isEndC, own, count, taken⟩

theorem mergeRule_tokensAt {rule : (Terminator → Bool) × Nat × Nat} (isMerge : t.mergeRule = some rule) :
    t.tokensAt b = [] := by
  cases t with
  | ifInstr ifTrue ifFalse tail => cases isMerge
  | loopInstr body tail => cases isMerge
  | _ => rfl

/-- The state after the terminator of a new block. -/
theorem lowerTerminator_ok (consistent : state.Consistent f tree size) (new : b ∉ state.processed)
    (isEnd : f.terminator b = some t)
    (ran : lowerTerminator f tree size b t { state with processed := b :: state.processed } = .ok after) :
    after.Consistent f tree size ∧ after.processed = b :: state.processed := by
  have known : ∀ c jps, (t.tokensAt b ++ state.structuredJoinTokens).lookup c = some jps ↔
      c ∈ b :: state.processed ∧ ∃ t, f.terminator c = some t ∧ t.tokensAt c = [(c, jps)] := by
    intro c jps
    rw [lookup_tokensAt t b c _ jps (consistent.fresh new), consistent.known, List.mem_cons]
    constructor
    · intro either
      cases either with
      | inl own => exact ⟨.inl own.1, t, own.1 ▸ isEnd, own.1 ▸ own.2⟩
      | inr old => exact ⟨.inr old.1, old.2⟩
    · intro both
      obtain ⟨own | old, t', isEnd', tokens⟩ := both
      · rw [own, isEnd] at isEnd'
        cases isEnd'
        exact .inl ⟨own, own ▸ tokens⟩
      · exact .inr ⟨old, t', isEnd', tokens⟩
  unfold lowerTerminator at ran
  cases isMerge : t.mergeRule with
  | none =>
      simp only [isMerge, Except.ok.injEq] at ran
      subst ran
      refine ⟨⟨known, fun b' token member => ?_, fun b' member t' rule isEnd' isMerge' => ?_⟩, rfl⟩
      · exact ⟨List.mem_cons_of_mem _ (consistent.joins b' token member).1, (consistent.joins b' token member).2⟩
      · cases List.mem_cons.mp member with
        | inl same =>
            rw [same, isEnd] at isEnd'
            cases isEnd'
            rw [isMerge] at isMerge'
            cases isMerge'
        | inr old => exact consistent.joined b' old t' rule isEnd' isMerge'
  | some rule =>
      simp only [isMerge] at ran
      obtain ⟨jp, found, ran⟩ := bind_eq_ok.mp ran
      obtain rfl := pure_eq_ok.mp ran
      rw [mergeRule_tokensAt isMerge, List.nil_append] at found
      refine ⟨⟨known, fun b' token member => ?_, fun b' member t' rule' isEnd' isMerge' => ?_⟩, rfl⟩
      · cases List.mem_cons.mp member with
        | inl same =>
            cases same
            exact ⟨List.mem_cons_self, lowerMerge_ok consistent isEnd isMerge found⟩
        | inr old => exact ⟨List.mem_cons_of_mem _ (consistent.joins b' token old).1, (consistent.joins b' token old).2⟩
      · cases List.mem_cons.mp member with
        | inl same => exact ⟨jp, same ▸ List.mem_cons_self⟩
        | inr old =>
            obtain ⟨token, joined⟩ := consistent.joined b' old t' rule' isEnd' isMerge'
            exact ⟨token, List.mem_cons_of_mem _ joined⟩

theorem LowerCfState.Grown.trans {first second third : LowerCfState} (before : first.Grown f second)
    (later : second.Grown f third) : first.Grown f third where
  subset := List.Subset.trans before.subset later.subset
  closed := by
    intro b member new t isEnd c follows
    by_cases earlier : b ∈ second.processed
    · exact later.subset (before.closed b earlier new t isEnd c follows)
    · exact later.closed b member earlier t isEnd c follows

theorem lowerBlocks_grown {fuel : Nat}
    (each : ∀ b state after, state.Consistent f tree size → lowerBlock f tree size fuel b state = .ok after →
      after.Consistent f tree size ∧ state.Grown f after ∧ b ∈ after.processed) :
    ∀ (blocks : List AbsId) (state after : LowerCfState), state.Consistent f tree size →
      blocks.foldlM (fun state c => lowerBlock f tree size fuel c state) state = .ok after →
      after.Consistent f tree size ∧ state.Grown f after ∧ blocks ⊆ after.processed := by
  intro blocks
  induction blocks with
  | nil =>
      intro state after consistent ran
      obtain rfl := pure_eq_ok.mp ran
      exact ⟨consistent, ⟨List.Subset.refl _, fun _ member new => absurd member new⟩, List.nil_subset _⟩
  | cons b blocks ih =>
      intro state after consistent ran
      rw [List.foldlM_cons] at ran
      obtain ⟨middle, first, rest⟩ := bind_eq_ok.mp ran
      obtain ⟨consistent', before, here⟩ := each b state middle consistent first
      obtain ⟨consistent'', later, others⟩ := ih middle after consistent' rest
      exact ⟨consistent'', before.trans later, List.cons_subset.mpr ⟨later.subset here, others⟩⟩

theorem lowerBlock_grown (fuel : Nat) : ∀ b state after, state.Consistent f tree size →
    lowerBlock f tree size fuel b state = .ok after →
      after.Consistent f tree size ∧ state.Grown f after ∧ b ∈ after.processed := by
  induction fuel with
  | zero => exact fun _ _ _ _ ran => nomatch ran
  | succ fuel ih =>
      intro b state after consistent ran
      rw [lowerBlock] at ran
      split_ifs at ran with known
      · cases ran
        exact ⟨consistent, ⟨List.Subset.refl _, fun _ member new => absurd member new⟩, known⟩
      · cases got : f.get b with
        | none =>
            rw [got] at ran
            cases ran
        | some abs =>
            simp only [got] at ran
            cases body : abs.body with
            | none =>
                have noEnd : f.terminator b = none := by rw [Function.terminator, got, Option.bind_some, body]
                simp only [body, Except.ok.injEq] at ran
                subst ran
                refine ⟨⟨fun c jps => ?_, fun b' token member => ?_, fun b' member t rule isEnd isMerge => ?_⟩,
                  ⟨List.subset_cons_self _ _, fun b' member new t isEnd => ?_⟩, List.mem_cons_self⟩
                · refine (consistent.known c jps).trans (and_congr_left fun tokens => ?_)
                  obtain ⟨t, isEnd, -⟩ := tokens
                  refine (or_iff_right ?_).symm.trans List.mem_cons.symm
                  intro same
                  rw [same, noEnd] at isEnd
                  cases isEnd
                · exact ⟨List.mem_cons_of_mem _ (consistent.joins b' token member).1,
                    (consistent.joins b' token member).2⟩
                · cases List.mem_cons.mp member with
                  | inl same =>
                      rw [same, noEnd] at isEnd
                      cases isEnd
                  | inr old => exact consistent.joined b' old t rule isEnd isMerge
                · cases List.mem_cons.mp member with
                  | inl same =>
                      rw [same, noEnd] at isEnd
                      cases isEnd
                  | inr old => exact absurd old new
            | some t =>
                have isEnd : f.terminator b = some t := by rw [Function.terminator, got, Option.bind_some, body]
                simp only [body] at ran
                obtain ⟨middle, first, rest⟩ := bind_eq_ok.mp ran
                obtain ⟨consistent', processed⟩ := lowerTerminator_ok consistent known isEnd first
                obtain ⟨consistent'', later, others⟩ := lowerBlocks_grown ih t.rewritten middle after consistent' rest
                refine ⟨consistent'', ⟨?_, fun b' member new t' isEnd' c follows => ?_⟩, ?_⟩
                · refine List.Subset.trans (List.subset_cons_self b state.processed) ?_
                  rw [← processed]
                  exact later.subset
                · by_cases same : b' = b
                  · rw [same, isEnd] at isEnd'
                    cases isEnd'
                    exact others follows
                  · refine later.closed b' member ?_ t' isEnd' c follows
                    rw [processed]
                    exact fun early => (List.mem_cons.mp early).elim same new
                · exact later.subset (processed ▸ List.mem_cons_self)

end Rewriting

/-! ## The graph of a nested function -/

section Nested
variable {f : Function} {scope : AbsId → List Frame} {result : AnalysedCFG}

/-- What the analysis of a nested function gives to the pass. -/
structure Prepared (f : Function) (result : AnalysedCFG) : Prop where
  wellFormed : result.cfg.WellFormed
  numbers : result.rpo.Numbers result.cfg
  invariant : IdomInvariant (result.cfg.trimmed result.rpo) result.rpo result.tree.idom
  exact : IdomExact (result.cfg.trimmed result.rpo) result.tree.idom
  written : ∀ b, f.Written b → some b ∈ result.cfg.contents
  ends : ∀ d w, result.cfg.Edge d w → ∃ block t, d = some block ∧ f.terminator block = some t

theorem mem_edgesIn_of_rewritten (frames : List Frame) {a c : AbsId} {t : Terminator}
    (isEnd : f.terminator a = some t) (follows : c ∈ t.rewritten) : ∃ e ∈ f.edgesIn frames a, e.dst = some c := by
  rw [Function.edgesIn_eq frames isEnd]
  rw [Terminator.rewritten, Terminator.structuralTargets, List.mem_append, List.mem_append] at follows
  obtain jumped | asBody | asTail := follows
  · obtain ⟨j, isJump, rfl⟩ := List.mem_map.mp jumped
    refine ⟨_, List.mem_append_left _ (List.mem_append_left _ (List.mem_append_left _ (List.mem_map_of_mem isJump))), rfl⟩
  · exact ⟨_, List.mem_append_left _ (List.mem_append_right _ (List.mem_map_of_mem asBody)), rfl⟩
  · exact ⟨_, List.mem_append_left _ (List.mem_append_left _ (List.mem_append_right _ (List.mem_map_of_mem asTail))), rfl⟩

theorem exists_prepared (nested : f.Nested scope) :
    ∃ result, newCfg f f.self defaultForwardCfgBuild = .ok result ∧ Prepared f result := by
  obtain ⟨state, built, found, nodes⟩ := Function.buildCfg_nested nested
  obtain ⟨rpo, tree, analysed⟩ := newCfg_total rfl built
  obtain ⟨wellFormed, reachable⟩ := buildCfg_spec built
  obtain ⟨rpo', numbered, numbers⟩ := computeRpo_numbers wellFormed reachable
  have computed : computeDomtree (state.toCFG f.self) rpo = .ok tree ∧ rpo = rpo' := by
    obtain ⟨built', graph, rest⟩ := bind_eq_ok.mp analysed
    obtain ⟨same, unflipped, rest⟩ := bind_eq_ok.mp rest
    obtain rfl := Except.ok.inj unflipped
    obtain ⟨rpo'', numbered', rest⟩ := bind_eq_ok.mp rest
    obtain ⟨tree', computed, rest⟩ := bind_eq_ok.mp rest
    cases pure_eq_ok.mp rest
    exact ⟨computed, Except.ok.inj (numbered'.symm.trans numbered)⟩
  obtain ⟨computed, rfl⟩ := computed
  obtain ⟨invariant, exact, -⟩ := computeDomtree_trimmed numbers wellFormed computed
  refine ⟨_, analysed, wellFormed, numbers, invariant, exact, fun b written => ?_, fun d w taken => ?_⟩
  · induction written with
    | refl => exact wellFormed.entry_mem
    | @tail a c _ step ih =>
        obtain ⟨t, isEnd, follows⟩ := step
        obtain ⟨path, isFound⟩ := found.of_node ((nodes a).mp ih)
        obtain ⟨e, member, leads⟩ := mem_edgesIn_of_rewritten (f.entered path a) isEnd follows
        have listed : e ∈ (state.toCFG f.self).succEdges (some a) := (found.added _ isFound).mem_iff.mpr member
        exact (wellFormed.edge_mem ⟨e, listed, leads⟩).2
  · cases d with
    | none => exact absurd (wellFormed.edge_mem taken).1 (buildCfg_real built)
    | some a =>
        obtain ⟨path, isFound⟩ := found.of_node ((nodes a).mp (wellFormed.edge_mem taken).1)
        obtain ⟨e, listed, -⟩ := taken
        have member : e ∈ f.edgesIn (f.entered path a) a := (found.added _ isFound).mem_iff.mp listed
        obtain ⟨t, isEnd⟩ := Function.terminator_of_mem member
        exact ⟨a, t, rfl, isEnd⟩

/-- The search from the block of a merge. -/
theorem dominatingConstruct_written (prepared : Prepared f result) (kind : Terminator → Bool) {b : AbsId}
    (written : f.Written b) (c : AbsId) :
    dominatingConstruct f result.tree kind result.cfg.size (result.tree.idom (some b)) = .ok c ↔
      f.EndsIn kind (some c) ∧
        StrictlyDominates (result.cfg.trimmed result.rpo).Edge result.cfg.entry (some c) (some b) ∧
        ∀ d, f.EndsIn kind d →
          StrictlyDominates (result.cfg.trimmed result.rpo).Edge result.cfg.entry (some c) d →
          ¬ StrictlyDominates (result.cfg.trimmed result.rpo).Edge result.cfg.entry d (some b) := by
  have inside := prepared.written b written
  have reachable := ((trimmed_numbers prepared.numbers prepared.wellFormed).reachable
    (trimmed_wellFormed prepared.wellFormed)) (some b) inside
  have lower := prepared.invariant.tree.lower
  have above_of : ∀ {v}, Reachable (result.cfg.trimmed result.rpo).Edge result.cfg.entry v → ∀ d,
      (Above result.tree.idom v d ↔ Dominates (result.cfg.trimmed result.rpo).Edge result.cfg.entry d v) :=
    fun reachable d => (prepared.exact _ reachable d).symm
  -- what strictly dominates the block is above its parent
  have strict_iff : ∀ {v}, Reachable (result.cfg.trimmed result.rpo).Edge result.cfg.entry v → ∀ d,
      (StrictlyDominates (result.cfg.trimmed result.rpo).Edge result.cfg.entry d v ↔
        ∃ p, result.tree.idom v = some p ∧ Above result.tree.idom p d) := by
    intro v reachable d
    rw [StrictlyDominates, ← above_of reachable, above_iff]
    constructor
    · intro strict
      exact strict.1.resolve_left strict.2
    · intro further
      refine ⟨.inr further, ?_⟩
      rintro rfl
      obtain ⟨p, next, rest⟩ := further
      have less := lower _ _ next
      have back := prepared.invariant.tree.rank_le rest
      omega
  have reachableOf : ∀ {d}, StrictlyDominates (result.cfg.trimmed result.rpo).Edge result.cfg.entry d (some b) →
      Reachable (result.cfg.trimmed result.rpo).Edge result.cfg.entry d := by
    intro d strict
    obtain ⟨visited, walk⟩ := reachable
    exact walk.mem_reachable (strict.1 visited walk)
  have endsOf : ∀ {d}, StrictlyDominates (result.cfg.trimmed result.rpo).Edge result.cfg.entry d (some b) →
      ∃ block t, d = some block ∧ f.terminator block = some t := by
    intro d strict
    obtain ⟨visited, walk⟩ := reachable
    obtain ⟨w, follows⟩ := walk.goesOn (strict.1 visited walk) strict.2
    obtain ⟨e, member, src⟩ := ((trimmed_wellFormed prepared.wellFormed).edge_iff_pred d w).mp follows
    obtain ⟨e', listed, sameSrc, -⟩ := mem_trimmedPreds member
    exact prepared.ends d w ((prepared.wellFormed.edge_iff_pred d w).mpr ⟨e', listed, sameSrc.trans src⟩)
  have strict_up := strict_iff reachable
  cases parent : result.tree.idom (some b) with
  | none =>
      have stuck : dominatingConstruct f result.tree kind result.cfg.size none ≠ .ok c := by
        cases result.cfg.size <;> nofun
      refine iff_of_false stuck fun nearest => ?_
      obtain ⟨p, next, -⟩ := (strict_up _).mp nearest.2.1
      rw [parent] at next
      cases next
  | some x =>
      have up_iff : ∀ d, Above result.tree.idom x d ↔
          StrictlyDominates (result.cfg.trimmed result.rpo).Edge result.cfg.entry d (some b) := by
        intro d
        rw [strict_up, parent]
        simp
      have small : result.rpo.rank x < result.cfg.size := by
        have less := lower _ _ parent
        have bound := prepared.numbers.rank_lt prepared.wellFormed inside
        omega
      rw [dominatingConstruct_iff lower _ x (fun d above => endsOf ((up_iff d).mp above)) small c, up_iff]
      refine and_congr_right fun _ => and_congr_right fun strict => ?_
      constructor
      · intro nearest d isEnd between strictD
        have below := (above_of (reachableOf strictD) _).mpr between.1
        exact between.2 (nearest d isEnd ((up_iff d).mpr strictD) below).symm
      · intro none d isEnd up down
        by_contra other
        have strictD := (up_iff d).mp up
        refine none d isEnd ⟨(above_of (reachableOf strictD) _).mp down, Ne.symm other⟩ strictD

/-! ## Innermost constructs -/

theorem opener_unique (nested : f.Nested scope) {c c' : AbsId} {t t' : Terminator} {frame : Frame}
    (isEnd : f.terminator c = some t) (isEnd' : f.terminator c' = some t') (around : f.frame t = some frame)
    (around' : f.frame t' = some frame) : c = c' := by
  have tail := Function.tail_of_frame around
  have tail' := Function.tail_of_frame around'
  refine nested.apart c c' t t' frame.tail isEnd isEnd' ?_ ?_
  · exact List.mem_append_right _ (Option.mem_toList.mpr tail)
  · exact List.mem_append_right _ (Option.mem_toList.mpr tail')

theorem Function.Innermost.unique (nested : f.Nested scope) {b c c' : AbsId} {kind : Frame → Bool}
    (innermost : f.Innermost scope b kind c) (innermost' : f.Innermost scope b kind c') : c = c' := by
  obtain ⟨frame, found, t, isEnd, around⟩ := innermost.innermost
  obtain ⟨frame', found', t', isEnd', around'⟩ := innermost'.innermost
  rw [found] at found'
  cases found'
  exact opener_unique nested isEnd isEnd' around around'

/-- The constructs around a block were opened by blocks of a set. -/
def OpenedIn (f : Function) (scope : AbsId → List Frame) (blocks : List AbsId) (b : AbsId) : Prop :=
  ∀ frame ∈ scope b, ∃ c ∈ blocks, ∃ t, f.terminator c = some t ∧ f.frame t = some frame

theorem OpenedIn.step (nested : f.Nested scope) {blocks : List AbsId} {a c : AbsId} {t : Terminator}
    (opened : OpenedIn f scope blocks a) (here : a ∈ blocks) (isEnd : f.terminator a = some t)
    (follows : c ∈ t.rewritten) : OpenedIn f scope blocks c := by
  rw [Terminator.rewritten, Terminator.structuralTargets, List.mem_append, List.mem_append] at follows
  obtain jumped | asBody | asTail := follows
  · obtain ⟨j, isJump, rfl⟩ := List.mem_map.mp jumped
    intro frame member
    rw [(nested.jumps a t isEnd j isJump).2] at member
    exact opened frame member
  · obtain ⟨-, own, around, pushed⟩ := nested.bodies a t isEnd c asBody
    intro frame member
    rw [pushed] at member
    cases List.mem_cons.mp member with
    | inl same => exact ⟨a, here, t, isEnd, same ▸ around⟩
    | inr outer => exact opened frame outer
  · intro frame member
    rw [(nested.tails a t isEnd c (Option.mem_toList.mp asTail)).2] at member
    exact opened frame member

/-- The constructs around a written block were opened by written blocks. -/
theorem opened_written (nested : f.Nested scope) {blocks : List AbsId} (all : ∀ b, f.Written b → b ∈ blocks) {b : AbsId}
    (written : f.Written b) : OpenedIn f scope blocks b := by
  induction written with
  | refl =>
      intro frame member
      rw [nested.start] at member
      cases member
  | tail earlier step ih =>
      obtain ⟨t, isEnd, follows⟩ := step
      exact ih.step nested (all _ earlier) isEnd follows

theorem isBlock_of_rewritten (nested : f.Nested scope) {a c : AbsId} {t : Terminator} (isEnd : f.terminator a = some t)
    (follows : c ∈ t.rewritten) : ∃ abs, f.get c = some abs := by
  rw [Terminator.rewritten, Terminator.structuralTargets, List.mem_append, List.mem_append] at follows
  obtain jumped | asBody | asTail := follows
  · obtain ⟨j, isJump, rfl⟩ := List.mem_map.mp jumped
    obtain ⟨abs, got, -⟩ := (nested.jumps a t isEnd j isJump).1
    exact ⟨abs, got⟩
  · obtain ⟨abs, got, -⟩ := (nested.bodies a t isEnd c asBody).1
    exact ⟨abs, got⟩
  · obtain ⟨abs, got, -⟩ := (nested.tails a t isEnd c (Option.mem_toList.mp asTail)).1
    exact ⟨abs, got⟩

/-- The kind of construct that the pass searches for is that of the merge. -/
theorem mergeRule_of_merges (f : Function) {t : Terminator} {kind : Frame → Bool} (isMerge : t.merges = some kind) :
    ∃ rule, t.mergeRule = some rule ∧ ∀ tc : Terminator,
      rule.1 tc = true ↔ ∃ frame, f.frame tc = some frame ∧ kind frame = true := by
  have selection : ∀ tc : Terminator,
      tc.isSelection = true ↔ ∃ frame, f.frame tc = some frame ∧ Frame.isSelection frame = true := by
    intro tc
    cases tc <;> simp [Terminator.isSelection, Function.frame, Frame.isSelection]
  have loop : ∀ tc : Terminator,
      tc.isLoop = true ↔ ∃ frame, f.frame tc = some frame ∧ Frame.isLoop frame = true := by
    intro tc
    cases tc <;> simp [Terminator.isLoop, Function.frame, Frame.isLoop]
  cases t with
  | mergeSelection => cases isMerge; exact ⟨_, rfl, selection⟩
  | mergeContinue => cases isMerge; exact ⟨_, rfl, loop⟩
  | mergeBreak => cases isMerge; exact ⟨_, rfl, loop⟩
  | _ => cases isMerge

/-- A construct of the kind has the token that the merge takes, unless it is a `match`. -/
theorem tokens_of_kind {t tc : Terminator} {rule : (Terminator → Bool) × Nat × Nat} (isMerge : t.mergeRule = some rule)
    (isKind : rule.1 tc = true) (c : AbsId) (noMatch : ∀ cases defaultCase tail, tc ≠ .matchInstr cases defaultCase tail) :
    ∃ jps token, tc.tokensAt c = [(c, jps)] ∧ jps.length = rule.2.1 ∧ jps[rule.2.2]? = some token ∧
      Function.tokenFor t c = some token := by
  have selection : tc.isSelection = true → tc.tokensAt c = [(c, [.ifJoin c])] := by
    intro isSelection
    cases tc with
    | ifInstr ifTrue ifFalse tail => rfl
    | matchInstr cases defaultCase tail => exact absurd rfl (noMatch cases defaultCase tail)
    | _ => cases isSelection
  have loop : tc.isLoop = true → tc.tokensAt c = [(c, [.loopBreakPoint c, .loopContinuePoint c])] := by
    intro isLoop
    cases tc with
    | loopInstr body tail => rfl
    | _ => cases isLoop
  cases t with
  | mergeSelection => cases isMerge; exact ⟨_, _, selection isKind, rfl, rfl, rfl⟩
  | mergeContinue => cases isMerge; exact ⟨_, _, loop isKind, rfl, rfl, rfl⟩
  | mergeBreak => cases isMerge; exact ⟨_, _, loop isKind, rfl, rfl, rfl⟩
  | _ => cases isMerge

/-- A token that is taken is the one of the construct for the merge. -/
theorem tokenFor_of_taken {t tc : Terminator} {rule : (Terminator → Bool) × Nat × Nat} (isMerge : t.mergeRule = some rule)
    {c : AbsId} {jps : List JoinToken} {token : JoinToken} (tokens : tc.tokensAt c = [(c, jps)])
    (count : jps.length = rule.2.1) (taken : jps[rule.2.2]? = some token) : Function.tokenFor t c = some token := by
  have either : jps = [.ifJoin c] ∨ jps = [.loopBreakPoint c, .loopContinuePoint c] := by
    cases tc with
    | ifInstr ifTrue ifFalse tail => cases tokens; exact .inl rfl
    | loopInstr body tail => cases tokens; exact .inr rfl
    | _ => cases tokens
  cases t with
  | mergeSelection =>
      cases isMerge
      cases either with
      | inl one => subst one; exact taken
      | inr two => subst two; cases count
  | mergeContinue =>
      cases isMerge
      cases either with
      | inl one => subst one; cases count
      | inr two => subst two; exact taken
  | mergeBreak =>
      cases isMerge
      cases either with
      | inl one => subst one; cases count
      | inr two => subst two; exact taken
  | _ => cases isMerge

theorem tokenFor_inj {t : Terminator} {c c' : AbsId} {token : JoinToken} (own : Function.tokenFor t c = some token)
    (own' : Function.tokenFor t c' = some token) : c = c' := by
  cases t with
  | mergeSelection => cases own; cases own'; rfl
  | mergeContinue => cases own; cases own'; rfl
  | mergeBreak => cases own; cases own'; rfl
  | _ => cases own

/-- The merges of the written blocks stand as the pass needs them. -/
def Function.NoneLeft (f : Function) (scope : AbsId → List Frame) (result : AnalysedCFG) : Prop :=
  ∀ b t kind construct, f.Written b → f.terminator b = some t → t.merges = some kind →
    f.Innermost scope b kind construct → f.NoneLeftBetween result b kind construct

theorem exists_innermost (nested : f.Nested scope) {b : AbsId} {t : Terminator} {kind : Frame → Bool}
    {blocks : List AbsId} (opened : OpenedIn f scope blocks b) (isEnd : f.terminator b = some t)
    (isMerge : t.merges = some kind) : ∃ c ∈ blocks, f.Innermost scope b kind c := by
  obtain ⟨frame, member, isKind⟩ := nested.merges b t kind isEnd isMerge
  obtain ⟨inner, found⟩ := Option.isSome_iff_exists.mp (List.find?_isSome.mpr ⟨frame, member, isKind⟩)
  obtain ⟨c, listed, tc, isEndC, around⟩ := opened inner (List.mem_of_find?_eq_some found)
  exact ⟨c, listed, ⟨inner, found, tc, isEndC, around⟩⟩

/-- The search finds the innermost construct if and only if nothing left comes between. -/
theorem found_innermost_iff (prepared : Prepared f result) {b c : AbsId} {kind : Frame → Bool}
    {rule : (Terminator → Bool) × Nat × Nat} (written : f.Written b)
    (rules : ∀ tc : Terminator, rule.1 tc = true ↔ ∃ frame, f.frame tc = some frame ∧ kind frame = true)
    (innermost : f.Innermost scope b kind c) :
    dominatingConstruct f result.tree rule.1 result.cfg.size (result.tree.idom (some b)) = .ok c ↔
      StrictlyDominates (result.cfg.trimmed result.rpo).Edge result.cfg.entry (some c) (some b) ∧
        ∀ left t frame, f.terminator left = some t → f.frame t = some frame → kind frame = true →
          StrictlyDominates (result.cfg.trimmed result.rpo).Edge result.cfg.entry (some c) (some left) →
          ¬ StrictlyDominates (result.cfg.trimmed result.rpo).Edge result.cfg.entry (some left) (some b) := by
  obtain ⟨frame, found, tc, isEndC, around⟩ := innermost.innermost
  have ofKind : f.EndsIn rule.1 (some c) :=
    ⟨c, tc, rfl, isEndC, (rules tc).mpr ⟨frame, around, List.find?_some found⟩⟩
  rw [dominatingConstruct_written prepared rule.1 written c, and_iff_right ofKind]
  refine and_congr_right fun _ => ⟨fun none left t frame isEnd around isKind => ?_, fun none d isEnd => ?_⟩
  · exact none (some left) ⟨left, t, rfl, isEnd, (rules t).mpr ⟨frame, around, isKind⟩⟩
  · obtain ⟨left, t, rfl, isEndLeft, isKind⟩ := isEnd
    obtain ⟨frame, around, isKind⟩ := (rules t).mp isKind
    exact none left t frame isEndLeft around isKind

theorem lowerTerminator_succeeds (nested : f.Nested scope) (prepared : Prepared f result)
    (noneLeft : f.NoneLeft scope result) {state : LowerCfState} {b : AbsId} {t : Terminator}
    (consistent : state.Consistent f result.tree result.cfg.size) (written : f.Written b)
    (opened : OpenedIn f scope state.processed b) (isEnd : f.terminator b = some t) :
    ∃ after, lowerTerminator f result.tree result.cfg.size b t { state with processed := b :: state.processed }
      = .ok after := by
  unfold lowerTerminator
  cases isMerge : t.mergeRule with
  | none => exact ⟨_, rfl⟩
  | some rule =>
      have merges : ∃ kind, t.merges = some kind := by
        cases t with
        | mergeSelection => exact ⟨_, rfl⟩
        | mergeContinue => exact ⟨_, rfl⟩
        | mergeBreak => exact ⟨_, rfl⟩
        | _ => cases isMerge
      obtain ⟨kind, merges⟩ := merges
      obtain ⟨rule', isMerge', rules⟩ := mergeRule_of_merges f merges
      obtain rfl := Option.some.inj (isMerge.symm.trans isMerge')
      obtain ⟨c, listed, innermost⟩ := exists_innermost nested opened isEnd merges
      have good := noneLeft b t kind c written isEnd merges innermost
      have found := (found_innermost_iff prepared written rules innermost).mpr ⟨good.dominates, good.noneLeft⟩
      obtain ⟨frame, inScope, tc, isEndC, around⟩ := innermost.innermost
      have isKind := (rules tc).mpr ⟨frame, around, List.find?_some inScope⟩
      obtain ⟨jps, token, tokens, count, taken, -⟩ := tokens_of_kind isMerge isKind c
        fun cases defaultCase tail same => good.tokens cases defaultCase tail (same ▸ isEndC)
      have known := (consistent.known c jps).mpr ⟨listed, tc, isEndC, tokens⟩
      refine ⟨_, bind_eq_ok.mpr ⟨token, ?_, rfl⟩⟩
      rw [mergeRule_tokensAt isMerge, List.nil_append, lowerMerge, found]
      change (match state.structuredJoinTokens.lookup c with
        | none => Except.error (LowerCfError.assertion "jps")
        | some jps =>
            if jps.length = rule.2.1 then
              match jps[rule.2.2]? with
              | some jp => .ok jp
              | none => .error (.assertion "jp")
            else .error (.assertion "jps->count")) = _
      rw [known]
      simp only [if_pos count, taken]

theorem lowerBlock_succeeds (nested : f.Nested scope) (prepared : Prepared f result)
    (noneLeft : f.NoneLeft scope result) (fuel : Nat) : ∀ b (state : LowerCfState), f.Written b →
      (∃ abs, f.get b = some abs) → state.Consistent f result.tree result.cfg.size →
      OpenedIn f scope state.processed b → Search.left (f.abstractions.map Prod.fst) state.processed < fuel →
      ∃ after, lowerBlock f result.tree result.cfg.size fuel b state = .ok after := by
  induction fuel with
  | zero => exact fun _ _ _ _ _ _ enough => absurd enough (Nat.not_lt_zero _)
  | succ fuel ih =>
      intro b state written isKnown consistent opened enough
      obtain ⟨abs, got⟩ := isKnown
      rw [lowerBlock]
      by_cases processed : b ∈ state.processed
      · exact ⟨state, if_pos processed⟩
      · rw [if_neg processed]
        simp only [got]
        cases body : abs.body with
        | none => exact ⟨_, rfl⟩
        | some t =>
            have isEnd : f.terminator b = some t := by rw [Function.terminator, got, Option.bind_some, body]
            obtain ⟨middle, first⟩ := lowerTerminator_succeeds nested prepared noneLeft consistent written opened isEnd
            obtain ⟨consistent', listed⟩ := lowerTerminator_ok consistent processed isEnd first
            have inside : b ∈ f.abstractions.map Prod.fst := by
              obtain ⟨entry, listed, same, -⟩ := Function.listed_of_terminator isEnd
              exact List.mem_map.mpr ⟨entry, listed, same⟩
            have fewer : Search.left (f.abstractions.map Prod.fst) (b :: state.processed) < fuel :=
              Nat.lt_of_lt_of_le (Search.left_lt inside processed) (Nat.lt_succ_iff.mp enough)
            have turn : ∀ c ∈ t.rewritten, ∀ s : LowerCfState,
                (s.Consistent f result.tree result.cfg.size ∧ b :: state.processed ⊆ s.processed) →
                ∃ s', lowerBlock f result.tree result.cfg.size fuel c s = .ok s' ∧
                  (s'.Consistent f result.tree result.cfg.size ∧ b :: state.processed ⊆ s'.processed) := by
              intro c follows s kept
              obtain ⟨consistentS, grown⟩ := kept
              have openedB : OpenedIn f scope s.processed b := by
                intro frame member
                obtain ⟨c, listed, rest⟩ := opened frame member
                exact ⟨c, grown (List.mem_cons_of_mem _ listed), rest⟩
              obtain ⟨s', ran⟩ := ih c s (Relation.ReflTransGen.tail written ⟨t, isEnd, follows⟩)
                (isBlock_of_rewritten nested isEnd follows) consistentS
                (openedB.step nested (grown List.mem_cons_self) isEnd follows)
                (Nat.lt_of_le_of_lt (Search.left_le grown) fewer)
              obtain ⟨consistentS', more, -⟩ := lowerBlock_grown fuel c s s' consistentS ran
              exact ⟨s', ran, consistentS', List.Subset.trans grown more.subset⟩
            obtain ⟨after, ran, -⟩ := foldlM_succeeds _ turn ⟨consistent', listed ▸ List.Subset.refl _⟩
            exact ⟨after, bind_eq_ok.mpr ⟨middle, first, ran⟩⟩

theorem consistent_empty : (LowerCfState.mk [] [] []).Consistent f result.tree result.cfg.size where
  known := fun _ _ => iff_of_false (fun found => nomatch found) fun both => nomatch both.1
  joins := fun _ _ member => nomatch member
  joined := fun _ member => nomatch member

/-- A finished pass has processed every block that is written out. -/
theorem lowered_written {state : LowerCfState} (ran : lowerCfInstrs f result = .ok state) :
    state.Consistent f result.tree result.cfg.size ∧ ∀ b, f.Written b → b ∈ state.processed := by
  obtain ⟨consistent, grown, here⟩ := lowerBlock_grown _ f.self _ state consistent_empty ran
  refine ⟨consistent, fun b written => ?_⟩
  induction written with
  | refl => exact here
  | tail _ step ih =>
      obtain ⟨t, isEnd, follows⟩ := step
      exact grown.closed _ ih List.not_mem_nil t isEnd _ follows

/-- A merge whose join is on the token of the innermost construct has nothing left between. -/
theorem noneLeft_of_bound (nested : f.Nested scope) (prepared : Prepared f result) (bound : f.MergesBound scope result) :
    f.NoneLeft scope result := by
  obtain ⟨state, ran, bound⟩ := bound
  obtain ⟨consistent, all⟩ := lowered_written ran
  intro b t kind construct written isEnd merges innermost
  obtain ⟨construct', token, innermost', own, only⟩ := bound b t kind written isEnd merges
  obtain rfl := innermost.unique nested innermost'
  obtain ⟨rule, isMerge, rules⟩ := mergeRule_of_merges f merges
  obtain ⟨-, t', rule', found, tc, jps, isEnd', isMerge', search, isEndC, tokens, count, taken⟩ :=
    consistent.joins b token ((only token).mpr rfl)
  obtain rfl := Option.some.inj (isEnd.symm.trans isEnd')
  obtain rfl := Option.some.inj (isMerge.symm.trans isMerge')
  obtain rfl := tokenFor_inj own (tokenFor_of_taken isMerge tokens count taken)
  obtain ⟨dominates, noneLeft⟩ := (found_innermost_iff prepared written rules innermost).mp search
  refine ⟨fun cases defaultCase tail isMatch => ?_, dominates, noneLeft⟩
  obtain rfl := Option.some.inj (isEndC.symm.trans isMatch)
  cases tokens

/-- Where nothing left comes between, the pass goes through and joins on the right tokens. -/
theorem bound_of_noneLeft (nested : f.Nested scope) (prepared : Prepared f result) (noneLeft : f.NoneLeft scope result) :
    f.MergesBound scope result := by
  have opened : OpenedIn f scope [] f.self := by
    intro frame member
    rw [nested.start] at member
    cases member
  have enough : Search.left (f.abstractions.map Prod.fst) [] < f.abstractions.length + 1 := by
    have most : Search.left (f.abstractions.map Prod.fst) [] ≤ _ := List.countP_le_length
    rw [List.length_map] at most
    omega
  obtain ⟨state, ran⟩ := lowerBlock_succeeds nested prepared noneLeft _ f.self ⟨[], [], []⟩ Relation.ReflTransGen.refl
    nested.self consistent_empty opened enough
  obtain ⟨consistent, all⟩ := lowered_written ran
  refine ⟨state, ran, fun b t kind written isEnd merges => ?_⟩
  obtain ⟨rule, isMerge, rules⟩ := mergeRule_of_merges f merges
  obtain ⟨construct, -, innermost⟩ := exists_innermost nested (opened_written nested all written) isEnd merges
  have good := noneLeft b t kind construct written isEnd merges innermost
  have search := (found_innermost_iff prepared written rules innermost).mpr ⟨good.dominates, good.noneLeft⟩
  -- every join of the block comes from the same search
  have onlyFor : ∀ token, (b, token) ∈ state.joins → Function.tokenFor t construct = some token := by
    intro token joined
    obtain ⟨-, t', rule', found, tc, jps, isEnd', isMerge', search', isEndC, tokens, count, taken⟩ :=
      consistent.joins b token joined
    obtain rfl := Option.some.inj (isEnd.symm.trans isEnd')
    obtain rfl := Option.some.inj (isMerge.symm.trans isMerge')
    obtain rfl := Except.ok.inj (search.symm.trans search')
    exact tokenFor_of_taken isMerge tokens count taken
  obtain ⟨token, joined⟩ := consistent.joined b (all b written) t rule isEnd isMerge
  refine ⟨construct, token, innermost, onlyFor token joined, fun token' => ⟨fun joined' => ?_, ?_⟩⟩
  · exact Option.some.inj ((onlyFor token' joined').symm.trans (onlyFor token joined))
  · intro same
    exact same ▸ joined

end Nested

/-- In a nested function the pass binds every merge to the innermost construct around it if and
    only if no construct of the kind that was left before the merge comes between the two among
    the dominators. -/
theorem mergesBound_iff (f : Function) (scope : AbsId → List Frame) (nested : f.Nested scope) :
    ∃ result, newCfg f f.self defaultForwardCfgBuild = .ok result ∧
      (f.MergesBound scope result ↔ f.NoneLeft scope result) := by
  obtain ⟨result, built, prepared⟩ := exists_prepared nested
  exact ⟨result, built, noneLeft_of_bound nested prepared, bound_of_noneLeft nested prepared⟩

/-- An `if` whose true body ends in another one; the tail of the inner `if` merges. -/
def ifInIf : Function := ⟨0, [
  (0, ⟨true, [], some (.ifInstr 1 none 3)⟩),
  (1, ⟨false, [], some (.ifInstr 2 none 4)⟩),
  (2, ⟨false, [], some .mergeSelection⟩),
  (3, ⟨false, [], some .fnRet⟩),
  (4, ⟨false, [], some .mergeSelection⟩)]⟩

def aroundIfInIf : AbsId → List Frame
  | 1 => [.selection 3]
  | 2 => [.selection 4, .selection 3]
  | 4 => [.selection 3]
  | _ => []

theorem ifInIf_nested : ifInIf.Nested aroundIfInIf := by
  refine Function.nested_of_listed ⟨_, rfl⟩ rfl (by decide) ?_ (by decide)
  simp [ifInIf]

/-- A loop whose body may break. -/
def ifInLoop : Function := ⟨0, [
  (0, ⟨true, [], some (.loopInstr 1 2)⟩),
  (1, ⟨false, [], some (.ifInstr 3 none 4)⟩),
  (2, ⟨false, [], some .fnRet⟩),
  (3, ⟨false, [], some .mergeBreak⟩),
  (4, ⟨false, [], some .mergeContinue⟩)]⟩

def aroundIfInLoop : AbsId → List Frame
  | 1 => [.loop 1 2]
  | 3 => [.selection 4, .loop 1 2]
  | 4 => [.loop 1 2]
  | _ => []

theorem ifInLoop_nested : ifInLoop.Nested aroundIfInLoop := by
  refine Function.nested_of_listed ⟨_, rfl⟩ rfl (by decide) ?_ (by decide)
  simp [ifInLoop]

/-- The merge after the inner `if` joins on the inner `if` again. -/
theorem ifInIf_unbound : ifInIf.Nested aroundIfInIf ∧ ∃ result, newCfg ifInIf 0 defaultForwardCfgBuild = .ok result ∧
    (lowerCfInstrs ifInIf result).map (·.joins) = .ok [(4, .ifJoin 1), (2, .ifJoin 1)] ∧
    ifInIf.Innermost aroundIfInIf 4 Frame.isSelection 0 ∧ ¬ ifInIf.MergesBound aroundIfInIf result := by
  have summary : (newCfg ifInIf 0 defaultForwardCfgBuild).map (fun result =>
      (lowerCfInstrs ifInIf result).map (·.joins)) = .ok (.ok [(4, .ifJoin 1), (2, .ifJoin 1)]) := by
    decide +kernel
  have innermost : ifInIf.Innermost aroundIfInIf 4 Frame.isSelection 0 := ⟨.selection 3, rfl, _, rfl, rfl⟩
  refine ⟨ifInIf_nested, ?_⟩
  cases built : newCfg ifInIf 0 defaultForwardCfgBuild with
  | error e =>
      rw [built] at summary
      cases summary
  | ok result =>
      rw [built] at summary
      have joins : (lowerCfInstrs ifInIf result).map (·.joins) = .ok [(4, .ifJoin 1), (2, .ifJoin 1)] :=
        Except.ok.inj summary
      refine ⟨result, rfl, joins, innermost, fun bound => ?_⟩
      obtain ⟨state, ran, bound⟩ := bound
      have first : ifInIf.Written 1 := .single ⟨_, rfl, by decide⟩
      have written : ifInIf.Written 4 := first.tail ⟨_, rfl, by decide⟩
      obtain ⟨construct, token, innermost', own, only⟩ := bound 4 _ _ written rfl rfl
      obtain rfl := innermost.unique ifInIf_nested innermost'
      obtain rfl := Option.some.inj own
      rw [ran] at joins
      have same : state.joins = _ := Except.ok.inj joins
      have joined := (only (.ifJoin 0)).mpr rfl
      rw [same] at joined
      exact absurd joined (by decide)

/-- A break out of an `if` and the continue after it stay with the loop. -/
theorem ifInLoop_bound : ∃ result, newCfg ifInLoop 0 defaultForwardCfgBuild = .ok result ∧
    ifInLoop.MergesBound aroundIfInLoop result ∧ ifInLoop.NoneLeft aroundIfInLoop result := by
  have summary : (newCfg ifInLoop ifInLoop.self defaultForwardCfgBuild).map (fun result =>
      (lowerCfInstrs ifInLoop result).map (·.joins)) =
      .ok (.ok [(4, .loopContinuePoint 0), (3, .loopBreakPoint 0)]) := by
    decide +kernel
  obtain ⟨result, built, bound_iff⟩ := mergesBound_iff ifInLoop aroundIfInLoop ifInLoop_nested
  rw [built] at summary
  have joined : (lowerCfInstrs ifInLoop result).map (·.joins) = .ok [(4, .loopContinuePoint 0), (3, .loopBreakPoint 0)] :=
    Except.ok.inj summary
  cases lowered : lowerCfInstrs ifInLoop result with
  | error e =>
      rw [lowered] at joined
      cases joined
  | ok state =>
      rw [lowered] at joined
      have joins : state.joins = _ := Except.ok.inj joined
      have bound : ifInLoop.MergesBound aroundIfInLoop result := by
        refine ⟨state, lowered, fun b t kind written isEnd merges => ?_⟩
        rw [joins]
        obtain ⟨entry, listed, rfl, body⟩ := Function.listed_of_terminator isEnd
        fin_cases listed
        · cases body; cases merges
        · cases body; cases merges
        · cases body; cases merges
        · cases body
          cases merges
          exact ⟨0, .loopBreakPoint 0, ⟨_, rfl, _, rfl, rfl⟩, rfl, by simp⟩
        · cases body
          cases merges
          exact ⟨0, .loopContinuePoint 0, ⟨_, rfl, _, rfl, rfl⟩, rfl, by simp⟩
      exact ⟨result, built, bound, bound_iff.mp bound⟩

end Shady
