import Shady.Passes.CriticalEdgesRuns
import Shady.Analysis.LexicalExact
import Mathlib.Algebra.BigOperators.Group.Finset.Basic
import Mathlib.Algebra.BigOperators.Group.List.Basic

/-!
# No critical edge, and the same executions

The pass leaves no critical edge between jumps of different nodes, and it is not concerned with the
edges of structured constructs. What goes over a jump goes over a new block first, which hands it on.
-/

set_option autoImplicit false

namespace Shady.CriticalEdges

variable {f f' : Function} {scope : AbsId → List Frame} {blocks : List AbsId}
  {newBlock : AbsId → Jump → AbsId}

/-! ## The result of the pass -/

/-- The copies of the blocks, with a new block for each of their jump nodes. -/
structure Splits (f f' : Function) (blocks : List AbsId) (newBlock : AbsId → Jump → AbsId) : Prop where
  self : f'.self = f.self
  enumerated : Blocks f blocks
  copied : ∀ a ∈ blocks, ∃ abs, f.get a = some abs ∧
    f'.get a = some { abs with body := abs.body.map (redirect (newBlock a)) }
  inserted : ∀ a ∈ blocks, ∀ t ∈ f.terminator a, ∀ jump ∈ t.jumps, f.get (newBlock a jump) = none ∧
    f'.get (newBlock a jump) = some ⟨false, [], some (.jump jump)⟩
  apart : ∀ a ∈ blocks, ∀ a' ∈ blocks, ∀ t ∈ f.terminator a, ∀ t' ∈ f.terminator a',
    ∀ jump ∈ t.jumps, ∀ jump' ∈ t'.jumps, newBlock a jump = newBlock a' jump' → a = a' ∧ jump = jump'

theorem Rewriting.newBlock_eq {st : Rewriting} {a : AbsId} {jump : Jump} {b : AbsId}
    (found : st.jumps.lookup ⟨a, jump⟩ = some b) : st.newBlock a jump = b := by
  rw [Rewriting.newBlock, found]
  rfl

theorem removeCriticalEdges_splits (closed : Closed f) {fuel : Nat}
    (enough : f.abstractions.length < fuel) :
    ∃ f' blocks newBlock, removeCriticalEdges f fuel = .ok f' ∧ Splits f f' blocks newBlock := by
  have valid : Valid f (.initial f) := {
    below := Nat.le_refl _
    nodup := List.nodup_nil
    old := fun _ member => nomatch member
    inserted := fun _ _ found => nomatch found
    apart := fun _ _ _ found => nomatch found
    listed := fun _ _ found => nomatch found }
  have deep : Deep f fuel (.initial f) :=
    Nat.lt_of_le_of_lt List.countP_le_length (by rwa [List.length_map])
  obtain ⟨st, ran, rewrites⟩ := rewriteAbstraction_rewrites closed fuel f.self _ closed.self valid deep
  have copied : ∀ a ∈ st.seen, Copied f st a := fun a member =>
    rewrites.copied a member List.not_mem_nil
  have found : ∀ a ∈ st.seen, ∀ t ∈ f.terminator a, Redirected st a t := by
    intro a member t isTerminator
    obtain ⟨abs, got, -, redirected⟩ := copied a member
    rw [Function.terminator, got] at isTerminator
    exact redirected t isTerminator
  refine ⟨⟨f.self, st.abstractions⟩, st.seen, st.newBlock, ?_, rfl, ⟨rewrites.valid.nodup, ?_⟩, ?_, ?_, ?_⟩
  · rw [removeCriticalEdges, ran]
    rfl
  · intro a
    constructor
    · intro member
      obtain ⟨root, isRoot, leads⟩ := rewrites.reached a member List.not_mem_nil
      rw [List.mem_singleton.mp isRoot] at leads
      exact leads
    · intro reached
      induction reached with
      | refl => exact rewrites.met _ List.mem_cons_self
      | tail _ step ih =>
          obtain ⟨t, isTerminator, isOperand⟩ := step
          have redirected := found _ ih t isTerminator
          cases List.mem_append.mp isOperand with
          | inl target =>
              obtain ⟨jump, held, rfl⟩ := List.mem_map.mp target
              obtain ⟨b, here⟩ := redirected.jumps jump held
              exact (rewrites.valid.inserted _ _ here).2.2.1
          | inr target => exact redirected.met _ target
  · intro a member
    obtain ⟨abs, got, listed, -⟩ := copied a member
    exact ⟨abs, got, listed⟩
  · intro a member t isTerminator jump held
    obtain ⟨b, here⟩ := (found a member t isTerminator).jumps jump held
    have inserted := rewrites.valid.inserted _ _ here
    rw [Rewriting.newBlock_eq here]
    refine ⟨?_, inserted.2.2.2⟩
    cases got : f.get b with
    | none => rfl
    | some abs => exact absurd (lt_unused got) (Nat.not_lt.mpr inserted.1)
  · intro a member a' member' t isTerminator t' isTerminator' jump held jump' held' same
    obtain ⟨b, here⟩ := (found a member t isTerminator).jumps jump held
    obtain ⟨b', here'⟩ := (found a' member' t' isTerminator').jumps jump' held'
    rw [Rewriting.newBlock_eq here, Rewriting.newBlock_eq here'] at same
    have nodes := rewrites.valid.apart _ _ _ here (same ▸ here')
    exact ⟨congrArg JumpNode.block nodes, congrArg JumpNode.jump nodes⟩

/-! ## Edges -/

/-- The ways out of a block that are no jumps. -/
def ways (frames : List Frame) (t : Terminator) : List (CFEdgeType × AbsId) :=
  t.tail?.toList.map (.structuredTailEdge, ·) ++ t.bodies.map (.structuredEnterBodyEdge, ·)
    ++ t.leaves frames

theorem edgesIn_ways {frames : List Frame} {a : AbsId} {t : Terminator}
    (isTerminator : f.terminator a = some t) : f.edgesIn frames a =
      t.jumps.map (fun jump => ⟨.jumpEdge, some a, some jump.target, some jump, some (.jump jump)⟩)
        ++ (ways frames t).map fun way => ⟨way.1, some a, some way.2, none, some t⟩ := by
  simp only [Function.edgesIn, isTerminator, ways, List.map_append, List.map_map, List.append_assoc,
    Function.comp_def]

theorem jumps_redirect (g : Jump → AbsId) (t : Terminator) :
    (redirect g t).jumps = t.jumps.map fun jump => ⟨g jump, []⟩ := by
  cases t <;> simp [redirect, Terminator.jumps]

theorem ways_redirect (g : Jump → AbsId) (frames : List Frame) (t : Terminator) :
    ways frames (redirect g t) = ways frames t := by
  cases t <;> rfl

theorem structuralTargets_redirect (g : Jump → AbsId) (t : Terminator) :
    (redirect g t).structuralTargets = t.structuralTargets := by
  cases t <;> rfl

/-! ## Where edges lead -/

theorem Nested.closed (nested : f.Nested scope) : Closed f where
  self := nested.self
  operands a t isTerminator b isOperand := by
    cases List.mem_append.mp isOperand with
    | inl target =>
        obtain ⟨jump, held, rfl⟩ := List.mem_map.mp target
        exact (nested.jumps a t isTerminator jump held).1
    | inr target =>
        cases List.mem_append.mp target with
        | inl isBody => exact (nested.bodies a t isTerminator b isBody).1
        | inr isTail => exact (nested.tails a t isTerminator b (Option.mem_toList.mp isTail)).1

/-- The constructs around a block of the function belong to the function. -/
theorem frames_reached (nested : f.Nested scope) {a : AbsId} (reached : Reaches f a) :
    ∀ frame ∈ scope a, Reaches f frame.tail ∧ ∀ body ∈ frame.body?, Reaches f body := by
  induction reached with
  | refl =>
      rw [nested.start]
      exact fun _ member => nomatch member
  | @tail a b leads step ih =>
      obtain ⟨t, isTerminator, isOperand⟩ := step
      cases List.mem_append.mp isOperand with
      | inl target =>
          obtain ⟨jump, held, rfl⟩ := List.mem_map.mp target
          rw [(nested.jumps a t isTerminator jump held).2]
          exact ih
      | inr target =>
          cases List.mem_append.mp target with
          | inl isBody =>
              obtain ⟨-, frame, around, same⟩ := nested.bodies a t isTerminator b isBody
              rw [same]
              intro frame' member
              cases List.mem_cons.mp member with
              | inr outer => exact ih frame' outer
              | inl here =>
                  rw [here]
                  refine ⟨leads.tail ⟨t, isTerminator, ?_⟩, fun body held => leads.tail ⟨t, isTerminator, ?_⟩⟩
                  · exact List.mem_append_right _ (Function.tail_mem_of_frame around)
                  · exact List.mem_append_right _
                      (List.mem_append_left _ (Function.body_of_frame around held))
          | inr isTail =>
              rw [(nested.tails a t isTerminator b (Option.mem_toList.mp isTail)).2]
              exact ih

/-- A construct is left for a block that its frame names. -/
theorem leaves_named {frames : List Frame} {t : Terminator} {way : CFEdgeType × AbsId}
    (leaves : way ∈ t.leaves frames) :
    way.2 ∈ t.tail? ∨ ∃ frame ∈ frames, way.2 = frame.tail ∨ way.2 ∈ frame.body? := by
  have found : ∀ {kind : Frame → Bool} {type : CFEdgeType},
      way ∈ ((frames.find? kind).map (type, ·.tail)).toList →
        ∃ frame ∈ frames, way.2 = frame.tail ∨ way.2 ∈ frame.body? := by
    intro kind type member
    obtain ⟨frame, isFound, rfl⟩ := Option.map_eq_some_iff.mp (Option.mem_toList.mp member)
    exact ⟨frame, List.mem_of_find?_eq_some isFound, .inl rfl⟩
  cases t with
  | ifInstr ifTrue ifFalse tail =>
      cases ifFalse with
      | none =>
          rw [List.mem_singleton.mp leaves]
          exact .inl rfl
      | some ifFalse => exact nomatch leaves
  | join token => exact .inr (found leaves)
  | mergeSelection => exact .inr (found leaves)
  | mergeBreak => exact .inr (found leaves)
  | mergeContinue =>
      obtain ⟨body, isBody, rfl⟩ := Option.map_eq_some_iff.mp (Option.mem_toList.mp leaves)
      obtain ⟨frame, isFound, isBody⟩ := Option.bind_eq_some_iff.mp isBody
      exact .inr ⟨frame, List.mem_of_find?_eq_some isFound, .inr isBody⟩
  | _ => exact nomatch leaves

/-- What is no jump leads to a block of the function. -/
theorem ways_reached (nested : f.Nested scope) {a : AbsId} (reached : Reaches f a) {t : Terminator}
    (isTerminator : f.terminator a = some t) {way : CFEdgeType × AbsId}
    (held : way ∈ ways (scope a) t) : Reaches f way.2 := by
  have target : way.2 ∈ t.structuralTargets → Reaches f way.2 := fun isTarget =>
    reached.tail ⟨t, isTerminator, List.mem_append_right _ isTarget⟩
  rw [ways, List.mem_append, List.mem_append] at held
  rcases held with (isTail | isBody) | leaves
  · obtain ⟨tail, held, rfl⟩ := List.mem_map.mp isTail
    exact target (List.mem_append_right _ held)
  · obtain ⟨body, held, rfl⟩ := List.mem_map.mp isBody
    exact target (List.mem_append_left _ held)
  · cases leaves_named leaves with
    | inl isTail => exact target (List.mem_append_right _ (Option.mem_toList.mpr isTail))
    | inr named =>
        obtain ⟨frame, around, isNamed⟩ := named
        have inside := frames_reached nested reached frame around
        cases isNamed with
        | inl isTail => exact isTail ▸ inside.1
        | inr isBody => exact inside.2 _ isBody

section Splits
variable (splits : Splits f f' blocks newBlock)
include splits

theorem Splits.terminator {a : AbsId} (member : a ∈ blocks) :
    f'.terminator a = (f.terminator a).map (redirect (newBlock a)) := by
  obtain ⟨abs, got, copy⟩ := splits.copied a member
  rw [Function.terminator, Function.terminator, got, copy]
  rfl

theorem Splits.inserted_terminator {a : AbsId} (member : a ∈ blocks) {t : Terminator}
    (isTerminator : f.terminator a = some t) {jump : Jump} (held : jump ∈ t.jumps) :
    f'.terminator (newBlock a jump) = some (.jump jump) := by
  rw [Function.terminator, (splits.inserted a member t isTerminator jump held).2]
  rfl

theorem Splits.target_mem {a b : AbsId} (member : a ∈ blocks) {t : Terminator}
    (isTerminator : f.terminator a = some t) (isOperand : b ∈ operands t) : b ∈ blocks :=
  (splits.enumerated.reached b).mpr
    (((splits.enumerated.reached a).mp member).tail ⟨t, isTerminator, isOperand⟩)

theorem Splits.not_inserted {a b : AbsId} (member : a ∈ blocks) {t : Terminator}
    (isTerminator : f.terminator a = some t) {jump : Jump} (held : jump ∈ t.jumps)
    (old : b ∈ blocks) : newBlock a jump ≠ b := by
  rintro rfl
  obtain ⟨abs, got, -⟩ := splits.copied _ old
  have absent := (splits.inserted a member t isTerminator jump held).1
  rw [got] at absent
  exact nomatch absent

theorem Splits.reaches_inserted {a : AbsId} (member : a ∈ blocks) (reached : Reaches f' a)
    {t : Terminator} (isTerminator : f.terminator a = some t) {jump : Jump}
    (held : jump ∈ t.jumps) : Reaches f' (newBlock a jump) := by
  refine reached.tail ⟨redirect (newBlock a) t, ?_, List.mem_append_left _ ?_⟩
  · rw [splits.terminator member, isTerminator]
    rfl
  · rw [jumps_redirect, List.map_map]
    exact List.mem_map.mpr ⟨jump, held, rfl⟩

theorem Splits.reaches_old {b : AbsId} (reached : Reaches f b) : Reaches f' b := by
  induction reached with
  | refl => exact splits.self ▸ .refl
  | @tail a b leads step ih =>
      obtain ⟨t, isTerminator, isOperand⟩ := step
      have member := (splits.enumerated.reached a).mpr leads
      cases List.mem_append.mp isOperand with
      | inl target =>
          obtain ⟨jump, held, rfl⟩ := List.mem_map.mp target
          refine (splits.reaches_inserted member ih isTerminator held).tail ⟨.jump jump, ?_, ?_⟩
          · exact splits.inserted_terminator member isTerminator held
          · exact List.mem_cons_self
      | inr target =>
          refine ih.tail ⟨redirect (newBlock a) t, ?_, List.mem_append_right _ ?_⟩
          · rw [splits.terminator member, isTerminator]
            rfl
          · rw [structuralTargets_redirect]
            exact target

/-- The blocks behind the pass: those of before, and a new one for each jump node. -/
theorem Splits.reaches_iff {b : AbsId} : Reaches f' b ↔
    b ∈ blocks ∨ ∃ a ∈ blocks, ∃ t ∈ f.terminator a, ∃ jump ∈ t.jumps, newBlock a jump = b := by
  constructor
  · intro reached
    induction reached with
    | refl => exact .inl ((splits.enumerated.reached _).mpr (splits.self ▸ .refl))
    | @tail c b _ step ih =>
        obtain ⟨t', isTerminator', isOperand⟩ := step
        rcases ih with old | ⟨a, member, t, isTerminator, jump, held, rfl⟩
        · rw [splits.terminator old] at isTerminator'
          obtain ⟨t, isTerminator, rfl⟩ := Option.map_eq_some_iff.mp isTerminator'
          rw [operands, jumps_redirect, structuralTargets_redirect, List.map_map] at isOperand
          cases List.mem_append.mp isOperand with
          | inl target =>
              obtain ⟨jump, held, same⟩ := List.mem_map.mp target
              exact .inr ⟨c, old, t, isTerminator, jump, held, same⟩
          | inr target =>
              exact .inl (splits.target_mem old isTerminator (List.mem_append_right _ target))
        · rw [splits.inserted_terminator member isTerminator held] at isTerminator'
          cases isTerminator'
          rw [List.mem_singleton.mp isOperand]
          exact .inl (splits.target_mem member isTerminator
            (List.mem_append_left _ (List.mem_map_of_mem held)))
  · rintro (member | ⟨a, member, t, isTerminator, jump, held, rfl⟩)
    · exact splits.reaches_old ((splits.enumerated.reached b).mp member)
    · exact splits.reaches_inserted member
        (splits.reaches_old ((splits.enumerated.reached a).mp member)) isTerminator held

/-! ## Degrees -/

/-- The edges from a block to another. -/
def edgesTo (f : Function) (scope : AbsId → List Frame) (b a : AbsId) : Nat :=
  (f.edgesIn (scope a) a).countP fun e => e.dst = some b

omit splits in
theorem inDegree_eq_sum {blocks : List AbsId} (nodup : blocks.Nodup) (b : AbsId) :
    inDegree f scope blocks b = ∑ a ∈ blocks.toFinset, edgesTo f scope b a := by
  rw [List.sum_toFinset _ nodup, inDegree, List.countP_flatMap]
  rfl

omit splits in
theorem edgesTo_eq {a b : AbsId} {t : Terminator} (isTerminator : f.terminator a = some t) :
    edgesTo f scope b a = t.jumps.countP (fun jump => jump.target = b) +
      (ways (scope a) t).countP fun way => way.2 = b := by
  rw [edgesTo, edgesIn_ways isTerminator, List.countP_append, List.countP_map, List.countP_map]
  simp [Function.comp_def]

omit splits in
theorem outDegree_eq {a : AbsId} {t : Terminator} (isTerminator : f.terminator a = some t) :
    outDegree f scope a = t.jumps.length + (ways (scope a) t).length := by
  rw [outDegree, edgesIn_ways isTerminator, List.length_append, List.length_map, List.length_map]

theorem Splits.outDegree {a : AbsId} (member : a ∈ blocks) :
    outDegree f' scope a = outDegree f scope a := by
  cases isTerminator : f.terminator a with
  | none =>
      have isTerminator' := splits.terminator member
      rw [isTerminator] at isTerminator'
      rw [CriticalEdges.outDegree, CriticalEdges.outDegree, Function.edgesIn, Function.edgesIn,
        isTerminator, isTerminator']
      rfl
  | some t =>
      have isTerminator' := splits.terminator member
      rw [isTerminator] at isTerminator'
      rw [outDegree_eq isTerminator', outDegree_eq isTerminator, jumps_redirect, ways_redirect,
        List.length_map]

/-- A new block has one edge, to where its jump led. -/
theorem Splits.edgesTo_inserted {a : AbsId} (member : a ∈ blocks) {t : Terminator}
    (isTerminator : f.terminator a = some t) {jump : Jump} (held : jump ∈ t.jumps) (b : AbsId) :
    edgesTo f' scope b (newBlock a jump) = if jump.target = b then 1 else 0 := by
  rw [edgesTo_eq (splits.inserted_terminator member isTerminator held)]
  simp [Terminator.jumps, ways, Terminator.tail?, Terminator.bodies, Terminator.leaves,
    List.countP_cons]

theorem Splits.edgesTo_old {a b : AbsId} (member : a ∈ blocks) (old : b ∈ blocks)
    {t : Terminator} (isTerminator : f.terminator a = some t) :
    edgesTo f' scope b a = (ways (scope a) t).countP fun way => way.2 = b := by
  have isTerminator' := splits.terminator member
  rw [isTerminator] at isTerminator'
  rw [edgesTo_eq isTerminator', jumps_redirect, ways_redirect, List.countP_map]
  have none : (t.jumps.countP fun jump => decide (newBlock a jump = b)) = 0 := by
    rw [List.countP_eq_zero]
    intro jump held
    simpa using splits.not_inserted member isTerminator held old
  exact (congrArg (· + _) none).trans (Nat.zero_add _)

theorem Splits.edgesTo_new (nested : f.Nested scope) {a c : AbsId} (member : a ∈ blocks)
    (other : c ∈ blocks) {t u : Terminator} (isTerminator : f.terminator a = some t)
    (isTerminator' : f.terminator c = some u) {jump : Jump} (held : jump ∈ t.jumps) :
    edgesTo f' scope (newBlock a jump) c = if c = a then t.jumps.count jump else 0 := by
  have redirected := splits.terminator other
  rw [isTerminator'] at redirected
  have noWay : ((ways (scope c) u).countP fun way => decide (way.2 = newBlock a jump)) = 0 := by
    rw [List.countP_eq_zero]
    intro way isWay
    have inside := (splits.enumerated.reached _).mpr
      (ways_reached nested ((splits.enumerated.reached c).mp other) isTerminator' isWay)
    simpa using (splits.not_inserted member isTerminator held inside).symm
  rw [edgesTo_eq redirected, ways_redirect, noWay, Nat.add_zero, jumps_redirect, List.countP_map]
  by_cases same : c = a
  · subst same
    cases isTerminator.symm.trans isTerminator'
    rw [if_pos rfl, List.count]
    refine List.countP_congr fun jump' held' => ?_
    simp only [Function.comp_apply, decide_eq_true_eq, beq_iff_eq]
    constructor
    · exact fun equal => (splits.apart c member c member t isTerminator t isTerminator _ held' _ held
        equal).2
    · exact congrArg _
  · rw [if_neg same, List.countP_eq_zero]
    intro jump' held'
    simp only [Function.comp_apply, decide_eq_true_eq]
    exact fun equal => same (splits.apart c other a member u isTerminator' t isTerminator _ held' _
      held equal).1

omit splits in
theorem sum_ite (b : AbsId) (jumps : List Jump) :
    (jumps.map fun jump => if jump.target = b then 1 else 0).sum =
      jumps.countP fun jump => jump.target = b := by
  induction jumps with
  | nil => rfl
  | cons jump jumps ih =>
      rw [List.map_cons, List.sum_cons, ih, List.countP_cons, Nat.add_comm]
      simp only [decide_eq_true_eq]

omit splits in
theorem edgesTo_none {a b : AbsId} (ends : f.terminator a = none) : edgesTo f scope b a = 0 := by
  rw [edgesTo, Function.edgesIn, ends]
  rfl

theorem Splits.edgesTo_new_other (nested : f.Nested scope) {a c : AbsId} (member : a ∈ blocks)
    (reached : Reaches f' c) (other : c ≠ a) {t : Terminator} (isTerminator : f.terminator a = some t)
    {jump : Jump} (held : jump ∈ t.jumps) : edgesTo f' scope (newBlock a jump) c = 0 := by
  rcases splits.reaches_iff.mp reached with old | ⟨a', member', t', isTerminator', jump', held', rfl⟩
  · cases ends : f.terminator c with
    | none =>
        have ends' := splits.terminator old
        rw [ends] at ends'
        exact edgesTo_none ends'
    | some u => rw [splits.edgesTo_new nested member old isTerminator ends held, if_neg other]
  · rw [splits.edgesTo_inserted member' isTerminator' held', if_neg]
    have inside := splits.target_mem member' isTerminator'
      (List.mem_append_left _ (List.mem_map_of_mem held'))
    exact (splits.not_inserted member isTerminator held inside).symm

/-- A new block has as many edges in as its jump has places in the terminator. -/
theorem Splits.inDegree_new (nested : f.Nested scope) {all : List AbsId} (after : Blocks f' all)
    {a : AbsId} (member : a ∈ blocks) {t : Terminator} (isTerminator : f.terminator a = some t)
    {jump : Jump} (held : jump ∈ t.jumps) :
    inDegree f' scope all (newBlock a jump) = t.jumps.count jump := by
  have here : a ∈ all.toFinset :=
    List.mem_toFinset.mpr ((after.reached a).mpr (splits.reaches_iff.mpr (.inl member)))
  rw [inDegree_eq_sum after.nodup, Finset.sum_eq_single_of_mem a here,
    splits.edgesTo_new nested member member isTerminator isTerminator held, if_pos rfl]
  intro c isBlock other
  exact splits.edgesTo_new_other nested member ((after.reached c).mp (List.mem_toFinset.mp isBlock))
    other isTerminator held

/-- The jumps of a block. -/
def jumpsOf (f : Function) (a : AbsId) : List Jump := ((f.terminator a).map Terminator.jumps).getD []

/-- The new blocks that the jumps of a block get. -/
def insertedFrom (f : Function) (newBlock : AbsId → Jump → AbsId) (a : AbsId) : Finset AbsId :=
  (jumpsOf f a).toFinset.image (newBlock a)

omit splits in
theorem mem_jumpsOf {a : AbsId} {jump : Jump} :
    jump ∈ jumpsOf f a ↔ ∃ t ∈ f.terminator a, jump ∈ t.jumps := by
  rw [jumpsOf]
  cases f.terminator a with
  | none => simp
  | some t => simp

theorem Splits.toFinset_eq {all : List AbsId} (after : Blocks f' all) :
    all.toFinset = blocks.toFinset ∪ blocks.toFinset.biUnion (insertedFrom f newBlock) := by
  ext b
  rw [List.mem_toFinset, after.reached, splits.reaches_iff, Finset.mem_union, List.mem_toFinset,
    Finset.mem_biUnion]
  refine or_congr_right (exists_congr fun a => ?_)
  rw [List.mem_toFinset, insertedFrom, Finset.mem_image]
  refine and_congr_right fun _ => ?_
  constructor
  · rintro ⟨t, isTerminator, jump, held, same⟩
    exact ⟨jump, List.mem_toFinset.mpr (mem_jumpsOf.mpr ⟨t, isTerminator, held⟩), same⟩
  · rintro ⟨jump, isJump, same⟩
    obtain ⟨t, isTerminator, held⟩ := mem_jumpsOf.mp (List.mem_toFinset.mp isJump)
    exact ⟨t, isTerminator, jump, held, same⟩

theorem Splits.insertedFrom_disjoint :
    Disjoint blocks.toFinset (blocks.toFinset.biUnion (insertedFrom f newBlock)) := by
  rw [Finset.disjoint_left]
  intro b old new
  obtain ⟨a, member, isNew⟩ := Finset.mem_biUnion.mp new
  obtain ⟨jump, isJump, same⟩ := Finset.mem_image.mp isNew
  obtain ⟨t, isTerminator, held⟩ := mem_jumpsOf.mp (List.mem_toFinset.mp isJump)
  exact splits.not_inserted (List.mem_toFinset.mp member) isTerminator held
    (List.mem_toFinset.mp old) same

/-- What the new blocks of a block lead to: what its jumps led to, if they differ. -/
theorem Splits.sum_insertedFrom {a b : AbsId} (member : a ∈ blocks) (nodup : (jumpsOf f a).Nodup) :
    ∑ c ∈ insertedFrom f newBlock a, edgesTo f' scope b c =
      (jumpsOf f a).countP fun jump => jump.target = b := by
  rw [insertedFrom, Finset.sum_image]
  · have each : ∀ jump ∈ (jumpsOf f a).toFinset, edgesTo f' scope b (newBlock a jump) =
        if jump.target = b then 1 else 0 := by
      intro jump isJump
      obtain ⟨t, isTerminator, held⟩ := mem_jumpsOf.mp (List.mem_toFinset.mp isJump)
      exact splits.edgesTo_inserted member isTerminator held b
    rw [Finset.sum_congr rfl each, List.sum_toFinset _ nodup, sum_ite]
  · intro jump isJump jump' isJump' same
    obtain ⟨t, isTerminator, held⟩ := mem_jumpsOf.mp (List.mem_toFinset.mp isJump)
    obtain ⟨t', isTerminator', held'⟩ := mem_jumpsOf.mp (List.mem_toFinset.mp isJump')
    exact (splits.apart a member a member t isTerminator t' isTerminator' jump held jump' held' same).2

theorem Splits.insertedFrom_pairwise :
    (blocks.toFinset : Set AbsId).PairwiseDisjoint (insertedFrom f newBlock) := by
  intro a member a' member' other
  rw [Function.onFun, Finset.disjoint_left]
  intro b new new'
  obtain ⟨jump, isJump, same⟩ := Finset.mem_image.mp new
  obtain ⟨jump', isJump', same'⟩ := Finset.mem_image.mp new'
  obtain ⟨t, isTerminator, held⟩ := mem_jumpsOf.mp (List.mem_toFinset.mp isJump)
  obtain ⟨t', isTerminator', held'⟩ := mem_jumpsOf.mp (List.mem_toFinset.mp isJump')
  exact other (splits.apart a (List.mem_toFinset.mp member) a' (List.mem_toFinset.mp member') t
    isTerminator t' isTerminator' jump held jump' held' (same.trans same'.symm)).1

/-- Where no block lists a jump twice, the blocks of before have as many edges in as before. -/
theorem Splits.inDegree_old {all : List AbsId} (after : Blocks f' all)
    (nodup : ∀ a ∈ blocks, (jumpsOf f a).Nodup) {b : AbsId} (old : b ∈ blocks) :
    inDegree f' scope all b = inDegree f scope blocks b := by
  rw [inDegree_eq_sum after.nodup, inDegree_eq_sum splits.enumerated.nodup, splits.toFinset_eq after,
    Finset.sum_union splits.insertedFrom_disjoint, Finset.sum_biUnion splits.insertedFrom_pairwise,
    ← Finset.sum_add_distrib]
  refine Finset.sum_congr rfl fun a isBlock => ?_
  have member := List.mem_toFinset.mp isBlock
  rw [splits.sum_insertedFrom member (nodup a member)]
  cases ends : f.terminator a with
  | none =>
      have ends' := splits.terminator member
      rw [ends] at ends'
      rw [edgesTo_none ends', edgesTo_none ends, jumpsOf, ends]
      rfl
  | some t =>
      rw [splits.edgesTo_old member old ends, edgesTo_eq ends, jumpsOf, ends, Nat.add_comm]
      rfl

/-- No terminator lists a jump twice, and no edge of a structured construct is critical. -/
structure Splittable (f : Function) (scope : AbsId → List Frame) (blocks : List AbsId) : Prop where
  jumps : ∀ a ∈ blocks, (jumpsOf f a).Nodup
  structural : ∀ a ∈ blocks, ∀ e ∈ f.edgesIn (scope a) a, e.jump = none →
    ¬ Critical f scope blocks a e

omit splits in
theorem mem_edgesIn_iff {frames : List Frame} {a : AbsId} {t : Terminator}
    (isTerminator : f.terminator a = some t) {e : CFEdge} : e ∈ f.edgesIn frames a ↔
      (∃ jump ∈ t.jumps, e = ⟨.jumpEdge, some a, some jump.target, some jump, some (.jump jump)⟩) ∨
      ∃ way ∈ ways frames t, e = ⟨way.1, some a, some way.2, none, some t⟩ := by
  rw [edgesIn_ways isTerminator, List.mem_append, List.mem_map, List.mem_map]
  simp only [eq_comm]

/-- Twice listed, a jump leaves a critical edge to its new block. -/
theorem Splits.critical_of_twice (nested : f.Nested scope) {all : List AbsId} (after : Blocks f' all)
    {a : AbsId} (member : a ∈ blocks) {t : Terminator} (isTerminator : f.terminator a = some t)
    {jump : Jump} (held : jump ∈ t.jumps) (twice : 2 ≤ t.jumps.count jump) :
    ¬ NoCriticalEdge f' scope all := by
  intro noCritical
  have isTerminator' := splits.terminator member
  rw [isTerminator] at isTerminator'
  have here : a ∈ all := (after.reached a).mpr (splits.reaches_iff.mpr (.inl member))
  refine noCritical a here ⟨.jumpEdge, some a, some (newBlock a jump), some ⟨newBlock a jump, []⟩,
    some (.jump ⟨newBlock a jump, []⟩)⟩ ?_ ⟨?_, newBlock a jump, rfl, ?_⟩
  · refine (mem_edgesIn_iff isTerminator').mpr (.inl ⟨⟨newBlock a jump, []⟩, ?_, rfl⟩)
    rw [jumps_redirect]
    exact List.mem_map_of_mem held
  · rw [splits.outDegree member, outDegree_eq isTerminator]
    have counted := List.count_le_length (a := jump) (l := t.jumps)
    omega
  · rwa [splits.inDegree_new nested after member isTerminator held]

/-- An edge that is no jump is as critical as before. -/
theorem Splits.critical_iff {all : List AbsId} (after : Blocks f' all)
    (nodup : ∀ a ∈ blocks, (jumpsOf f a).Nodup) {a b : AbsId} (member : a ∈ blocks)
    (old : b ∈ blocks) (e e' : CFEdge) (leads : e.dst = some b) (leads' : e'.dst = some b) :
    Critical f' scope all a e' ↔ Critical f scope blocks a e := by
  simp only [Critical, leads, leads', Option.some.injEq, exists_eq_left', splits.outDegree member,
    splits.inDegree_old after nodup old]

/-- No critical edge is left if and only if no terminator lists a jump twice, and no edge of a
structured construct was critical. -/
theorem Splits.noCriticalEdge_iff (nested : f.Nested scope) {all : List AbsId}
    (after : Blocks f' all) : NoCriticalEdge f' scope all ↔ Splittable f scope blocks := by
  have way : ∀ {a t way}, a ∈ blocks → f.terminator a = some t → way ∈ ways (scope a) t →
      way.2 ∈ blocks := fun member isTerminator isWay => (splits.enumerated.reached _).mpr
    (ways_reached nested ((splits.enumerated.reached _).mp member) isTerminator isWay)
  constructor
  · intro noCritical
    have nodup : ∀ a ∈ blocks, (jumpsOf f a).Nodup := by
      intro a member
      rw [List.nodup_iff_count_le_one]
      intro jump
      by_contra more
      have held : jump ∈ jumpsOf f a := List.count_pos_iff.mp (by omega)
      obtain ⟨t, isTerminator, held⟩ := mem_jumpsOf.mp held
      have same : jumpsOf f a = t.jumps := by
        rw [jumpsOf, isTerminator]
        rfl
      rw [same] at more
      exact splits.critical_of_twice nested after member isTerminator held (by omega) noCritical
    refine ⟨nodup, fun a member e isEdge structural => ?_⟩
    cases isTerminator : f.terminator a with
    | none =>
        rw [Function.edgesIn, isTerminator] at isEdge
        cases isEdge
    | some t =>
        have isTerminator' := splits.terminator member
        rw [isTerminator] at isTerminator'
        rcases (mem_edgesIn_iff isTerminator).mp isEdge with ⟨jump, -, rfl⟩ | ⟨out, isWay, rfl⟩
        · cases structural
        · rw [← splits.critical_iff after nodup member (way member isTerminator isWay) _
            ⟨out.1, some a, some out.2, none, some (redirect (newBlock a) t)⟩ rfl rfl]
          refine noCritical a ((after.reached a).mpr (splits.reaches_iff.mpr (.inl member))) _ ?_
          refine (mem_edgesIn_iff isTerminator').mpr (.inr ⟨out, ?_, rfl⟩)
          rw [ways_redirect]
          exact isWay
  · intro splittable a isBlock e isEdge critical
    rcases splits.reaches_iff.mp ((after.reached a).mp isBlock) with
      member | ⟨c, member, t, isTerminator, jump, held, rfl⟩
    · cases isTerminator : f.terminator a with
      | none =>
          have isTerminator' := splits.terminator member
          rw [isTerminator] at isTerminator'
          rw [Function.edgesIn, isTerminator'] at isEdge
          cases isEdge
      | some t =>
          have isTerminator' := splits.terminator member
          rw [isTerminator] at isTerminator'
          rcases (mem_edgesIn_iff isTerminator').mp isEdge with ⟨jump', held', rfl⟩ | ⟨out, isWay, rfl⟩
          · rw [jumps_redirect] at held'
            obtain ⟨jump, held, rfl⟩ := List.mem_map.mp held'
            obtain ⟨-, b, leads, several⟩ := critical
            cases leads
            rw [splits.inDegree_new nested after member isTerminator held] at several
            have once := splittable.jumps a member
            rw [jumpsOf, isTerminator] at once
            have counted := List.nodup_iff_count_le_one.mp once jump
            exact absurd several (by simpa using Nat.lt_succ_of_le counted)
          · rw [ways_redirect] at isWay
            refine splittable.structural a member ⟨out.1, some a, some out.2, none, some t⟩
              ((mem_edgesIn_iff isTerminator).mpr (.inr ⟨out, isWay, rfl⟩)) rfl ?_
            exact (splits.critical_iff after splittable.jumps member (way member isTerminator isWay)
              _ _ rfl rfl).mp critical
    · have several := critical.1
      rw [outDegree_eq (splits.inserted_terminator member isTerminator held)] at several
      simp [Terminator.jumps, ways, Terminator.tail?, Terminator.bodies, Terminator.leaves] at several

/-! ## Executions -/

variable {V W : Type} (machine : Machine V W)

omit splits in
theorem step_eq {machine : Machine V W} {c : Configuration V W} {edge : Nat} {values : ValueId → V}
    {world : W} (ran : machine.run c.block c.values c.world = some (edge, values, world)) :
    step machine f scope c = do
      let e ← (f.edgesIn (scope c.block) c.block)[edge]?
      let b ← e.dst
      return ⟨b, follow machine f c.block b e values, world⟩ := by
  rw [step, ran]
  rfl

omit splits in
theorem step_stops {machine : Machine V W} {c : Configuration V W}
    (ran : machine.run c.block c.values c.world = none) : step machine f scope c = none := by
  rw [step, ran]
  rfl

omit splits in
theorem assign_nil (params : List ValueId) (values : ValueId → V) :
    assign params [] values = values := by
  funext v
  rw [assign, List.zip_nil_right]
  rfl

theorem Splits.params {a : AbsId} (member : a ∈ blocks) : paramsOf f' a = paramsOf f a := by
  obtain ⟨abs, got, copy⟩ := splits.copied a member
  rw [paramsOf, paramsOf, got, copy]

theorem Splits.run_old {a : AbsId} (member : a ∈ blocks) :
    (machine.extend f).run a = machine.run a := by
  obtain ⟨abs, got, -⟩ := splits.copied a member
  funext values world
  rw [Machine.extend]
  simp [got]

/-- From a new block, the jump goes on to where it led. -/
theorem Splits.step_inserted {a : AbsId} (member : a ∈ blocks) {t : Terminator}
    (isTerminator : f.terminator a = some t) {jump : Jump} (held : jump ∈ t.jumps)
    (values : ValueId → V) (world : W) :
    step (machine.extend f) f' scope ⟨newBlock a jump, values, world⟩ =
      some ⟨jump.target, assign (paramsOf f jump.target) jump.args values, world⟩ := by
  have ran : (machine.extend f).run (newBlock a jump) values world = some (0, values, world) := by
    rw [Machine.extend]
    simp [(splits.inserted a member t isTerminator jump held).1]
  rw [step_eq ran, edgesIn_ways (splits.inserted_terminator member isTerminator held)]
  simp only [Terminator.jumps, List.map_cons, List.cons_append, List.getElem?_cons_zero,
    Option.bind_eq_bind, Option.bind_some, follow]
  rw [splits.params (splits.target_mem member isTerminator
    (List.mem_append_left _ (List.mem_map_of_mem held)))]
  rfl

/-- What a step does before and behind the pass: it stops, it does the same, or what goes over a jump
goes over a new block first. -/
theorem Splits.step_cases (nested : f.Nested scope) (c : Configuration V W)
    (member : c.block ∈ blocks) :
    (step machine f scope c = none ∧ step (machine.extend f) f' scope c = none) ∨
    (∃ d, d.block ∈ blocks ∧ step machine f scope c = some d ∧
      step (machine.extend f) f' scope c = some d) ∨
    ∃ via d, via.block ∉ blocks ∧ d.block ∈ blocks ∧ step machine f scope c = some d ∧
      step (machine.extend f) f' scope c = some via ∧
      step (machine.extend f) f' scope via = some d := by
  have same := splits.run_old machine member
  cases ran : machine.run c.block c.values c.world with
  | none => exact .inl ⟨step_stops ran, step_stops (by rw [same, ran])⟩
  | some result =>
      obtain ⟨edge, values, world⟩ := result
      have ran' : (machine.extend f).run c.block c.values c.world = some (edge, values, world) := by
        rw [same, ran]
      cases isTerminator : f.terminator c.block with
      | none =>
          have isTerminator' := splits.terminator member
          rw [isTerminator] at isTerminator'
          refine .inl ⟨?_, ?_⟩
          · rw [step_eq ran, Function.edgesIn, isTerminator]
            rfl
          · rw [step_eq ran', Function.edgesIn, isTerminator']
            rfl
      | some t =>
          have isTerminator' := splits.terminator member
          rw [isTerminator] at isTerminator'
          rw [step_eq ran, step_eq ran', edgesIn_ways isTerminator, edgesIn_ways isTerminator',
            jumps_redirect, ways_redirect]
          by_cases isJump : edge < t.jumps.length
          · right
            right
            have held := List.getElem_mem isJump
            refine ⟨⟨newBlock c.block t.jumps[edge], values, world⟩, ⟨t.jumps[edge].target,
              assign (paramsOf f t.jumps[edge].target) t.jumps[edge].args values, world⟩, ?_, ?_, ?_, ?_, ?_⟩
            · exact fun old => splits.not_inserted member isTerminator held old rfl
            · exact splits.target_mem member isTerminator
                (List.mem_append_left _ (List.mem_map_of_mem held))
            · rw [List.getElem?_append_left (by simpa using isJump), List.getElem?_map,
                List.getElem?_eq_getElem isJump]
              rfl
            · rw [List.getElem?_append_left (by simpa using isJump), List.map_map, List.getElem?_map,
                List.getElem?_eq_getElem isJump]
              simp only [Option.map_some, Function.comp_apply, Option.bind_eq_bind,
                Option.bind_some, follow, assign_nil]
              rfl
            · exact splits.step_inserted machine member isTerminator held values world
          · have behind : t.jumps.length ≤ edge := Nat.not_lt.mp isJump
            rw [List.getElem?_append_right (by simpa using behind),
              List.getElem?_append_right (by simpa using behind), List.getElem?_map,
              List.getElem?_map, List.length_map, List.length_map, List.length_map]
            cases taken : (ways (scope c.block) t)[edge - t.jumps.length]? with
            | none => exact .inl ⟨rfl, rfl⟩
            | some way =>
                have inside := (splits.enumerated.reached way.2).mpr (ways_reached nested
                  ((splits.enumerated.reached _).mp member) isTerminator
                  (List.mem_of_getElem? taken))
                exact .inr (.inl ⟨⟨way.2, machine.enter way.1 c.block way.2 values, world⟩, inside,
                  rfl, rfl⟩)

/-- What runs before the pass runs behind it. -/
theorem Splits.leads_forth (nested : f.Nested scope) {c d : Configuration V W}
    (member : c.block ∈ blocks) (leads : Leads machine f scope c d) :
    d.block ∈ blocks ∧ Leads (machine.extend f) f' scope c d := by
  induction leads with
  | refl => exact ⟨member, .refl⟩
  | @tail d e _ stepped ih =>
      rcases splits.step_cases machine nested d ih.1 with
        ⟨stops, -⟩ | ⟨e', inside, same, same'⟩ | ⟨via, e', -, inside, same, first, second⟩
      · rw [stops] at stepped
        exact nomatch stepped
      · cases same.symm.trans stepped
        exact ⟨inside, ih.2.tail same'⟩
      · cases same.symm.trans stepped
        exact ⟨inside, (ih.2.tail first).tail second⟩

/-- What runs behind the pass runs before it; from a new block it goes on to where the jump led. -/
theorem Splits.leads_back (nested : f.Nested scope) {c d : Configuration V W}
    (member : c.block ∈ blocks) (leads : Leads (machine.extend f) f' scope c d) :
    (d.block ∈ blocks ∧ Leads machine f scope c d) ∨
    ∃ e, d.block ∉ blocks ∧ e.block ∈ blocks ∧ step (machine.extend f) f' scope d = some e ∧
      Leads machine f scope c e := by
  induction leads with
  | refl => exact .inl ⟨member, .refl⟩
  | @tail d e _ stepped ih =>
      rcases ih with ⟨inside, before⟩ | ⟨d', -, inside', goesOn, before⟩
      · rcases splits.step_cases machine nested d inside with
          ⟨-, stops⟩ | ⟨e', inside', same, same'⟩ | ⟨via, e', outside, inside', same, first, second⟩
        · rw [stops] at stepped
          exact nomatch stepped
        · cases same'.symm.trans stepped
          exact .inl ⟨inside', before.tail same⟩
        · cases first.symm.trans stepped
          exact .inr ⟨e', outside, inside', second, before.tail same⟩
      · cases goesOn.symm.trans stepped
        exact .inl ⟨inside', before⟩

theorem Splits.stops_iff (nested : f.Nested scope) {c : Configuration V W}
    (member : c.block ∈ blocks) :
    step machine f scope c = none ↔ step (machine.extend f) f' scope c = none := by
  rcases splits.step_cases machine nested c member with
    ⟨stops, stops'⟩ | ⟨d, -, same, same'⟩ | ⟨via, d, -, -, same, first, -⟩
  · exact iff_of_true stops stops'
  · simp [same, same']
  · simp [same, first]

end Splits

/-- Each jump is led to a block of its own that jumps where it did, with its arguments. -/
def Forwards (f f' : Function) : Prop :=
  ∀ a, Reaches f a → ∀ t ∈ f.terminator a, ∃ newBlock : Jump → AbsId,
    f'.terminator a = some (redirect newBlock t) ∧
    ∀ jump ∈ t.jumps, f.get (newBlock jump) = none ∧
      f'.get (newBlock jump) = some ⟨false, [], some (.jump jump)⟩

/-- From each configuration in a block of the function, the same configurations in blocks of the
function are reached, and it stops in the same ones; in a new block it never stops. -/
def SameExecutions (f f' : Function) (scope : AbsId → List Frame) : Prop :=
  ∀ (V W : Type) (machine : Machine V W) (c : Configuration V W), Reaches f c.block →
    (∀ d, Reaches f d.block →
      (Leads machine f scope c d ↔ Leads (machine.extend f) f' scope c d) ∧
      (step machine f scope d = none ↔ step (machine.extend f) f' scope d = none)) ∧
    ∀ d, Leads (machine.extend f) f' scope c d → ¬ Reaches f d.block →
      ∃ e, step (machine.extend f) f' scope d = some e ∧ Reaches f e.block

/-- The pass leads every jump to a new block that hands it on, and keeps the executions. It leaves no
critical edge if and only if no terminator lists one jump twice, and no edge of a structured construct
was critical. -/
theorem removeCriticalEdges_exact (f : Function) (scope : AbsId → List Frame)
    (nested : f.Nested scope) {fuel : Nat} (enough : f.abstractions.length < fuel)
    {blocks : List AbsId} (enumerated : Blocks f blocks) :
    ∃ f', removeCriticalEdges f fuel = .ok f' ∧ Forwards f f' ∧ SameExecutions f f' scope ∧
      ∀ all, Blocks f' all →
        (NoCriticalEdge f' scope all ↔ Splittable f scope blocks) := by
  obtain ⟨f', seen, newBlock, ran, splits⟩ := removeCriticalEdges_splits (Nested.closed nested) enough
  have perm : seen.Perm blocks := (List.perm_ext_iff_of_nodup splits.enumerated.nodup
    enumerated.nodup).mpr fun a => (splits.enumerated.reached a).trans (enumerated.reached a).symm
  have splits : Splits f f' blocks newBlock := {
    self := splits.self
    enumerated := enumerated
    copied := fun a member => splits.copied a (perm.mem_iff.mpr member)
    inserted := fun a member => splits.inserted a (perm.mem_iff.mpr member)
    apart := fun a member a' member' =>
      splits.apart a (perm.mem_iff.mpr member) a' (perm.mem_iff.mpr member') }
  refine ⟨f', ran, ?_, ?_, fun all after => splits.noCriticalEdge_iff nested after⟩
  · intro a reached t isTerminator
    have member := (enumerated.reached a).mpr reached
    refine ⟨newBlock a, ?_, splits.inserted a member t isTerminator⟩
    rw [splits.terminator member, isTerminator]
    rfl
  · intro V W machine c reached
    have member := (enumerated.reached _).mpr reached
    constructor
    · intro d reached'
      have member' := (enumerated.reached _).mpr reached'
      refine ⟨⟨fun leads => (splits.leads_forth machine nested member leads).2, fun leads => ?_⟩,
        splits.stops_iff machine nested member'⟩
      rcases splits.leads_back machine nested member leads with ⟨-, before⟩ | ⟨e, outside, -⟩
      · exact before
      · exact absurd member' outside
    · intro d leads outside
      rcases splits.leads_back machine nested member leads with ⟨inside, -⟩ | ⟨e, -, inside, stepped, -⟩
      · exact absurd ((enumerated.reached _).mp inside) outside
      · exact ⟨e, stepped, (enumerated.reached _).mp inside⟩

/-! ## A branch -/

/-- The blocks of a function, from a list that is reached and that no operand leaves. -/
theorem blocks_of_listed {all : List AbsId} (nodup : all.Nodup) (self : f.self ∈ all)
    (closed : ∀ a ∈ all, ∀ t ∈ f.terminator a, ∀ b ∈ operands t, b ∈ all)
    (reached : ∀ a ∈ all, Reaches f a) : Blocks f all where
  nodup := nodup
  reached a := by
    refine ⟨reached a, fun leads => ?_⟩
    induction leads with
    | refl => exact self
    | tail _ step ih =>
        obtain ⟨t, isTerminator, isOperand⟩ := step
        exact closed _ ih t isTerminator _ isOperand

/-- A branch that jumps to one block either way. -/
def branching (trueArgs falseArgs : List ValueId) : Function := ⟨0, [
  (0, ⟨true, [], some (.branch ⟨1, trueArgs⟩ ⟨1, falseArgs⟩)⟩),
  (1, ⟨false, [10], some .fnRet⟩)]⟩

theorem branching_blocks (trueArgs falseArgs : List ValueId) :
    Blocks (branching trueArgs falseArgs) [0, 1] := by
  refine blocks_of_listed (by decide) List.mem_cons_self ?_ ?_
  · intro a member t isTerminator b isOperand
    rcases List.mem_pair.mp member with rfl | rfl
    · cases isTerminator
      simp [operands, Terminator.jumps, Terminator.structuralTargets, Terminator.bodies,
        Terminator.tail?] at isOperand
      simp [isOperand]
    · cases isTerminator
      cases isOperand
  · intro a member
    rcases List.mem_pair.mp member with rfl | rfl
    · exact .refl
    · exact .tail .refl ⟨_, rfl, List.mem_cons_self⟩

theorem branching_nested : (branching [11] [12]).Nested fun _ => [] := by
  refine Function.nested_of_listed ⟨_, rfl⟩ rfl (by decide) ?_ (by decide)
  simp [branching]

theorem removeCriticalEdges_branching : ∃ f',
    removeCriticalEdges (branching [11] [12]) 3 = .ok f' ∧ Forwards (branching [11] [12]) f' ∧
    SameExecutions (branching [11] [12]) f' (fun _ => []) ∧
    ∀ all, Blocks f' all → (NoCriticalEdge f' (fun _ => []) all ↔
      Splittable (branching [11] [12]) (fun _ => []) [0, 1]) :=
  removeCriticalEdges_exact (branching [11] [12]) (fun _ => []) branching_nested (by decide)
    (branching_blocks [11] [12])

/-- What the pass makes of a branch that gives the block the same argument either way. -/
def sharedBranch : Function := ⟨0, [
  (0, ⟨true, [], some (.branch ⟨2, []⟩ ⟨2, []⟩)⟩),
  (2, ⟨false, [], some (.jump ⟨1, [11]⟩)⟩),
  (1, ⟨false, [10], some .fnRet⟩)]⟩

theorem sharedBranch_blocks : Blocks sharedBranch [0, 2, 1] := by
  refine blocks_of_listed (by decide) List.mem_cons_self (by decide) ?_
  have shared : Reaches sharedBranch 2 :=
    .tail .refl ⟨.branch ⟨2, []⟩ ⟨2, []⟩, rfl, List.mem_cons_self⟩
  intro a member
  rcases List.mem_cons.mp member with rfl | member
  · exact .refl
  · rcases List.mem_pair.mp member with rfl | rfl
    · exact shared
    · exact shared.tail ⟨.jump ⟨1, [11]⟩, rfl, List.mem_cons_self⟩

/-- Both ways share a new block, and both edges to it are critical. -/
theorem removeCriticalEdges_shared : ∃ f' all,
    removeCriticalEdges (branching [11] [11]) 3 = .ok f' ∧ Blocks f' all ∧
    ¬ NoCriticalEdge f' (fun _ => []) all := by
  refine ⟨sharedBranch, [0, 2, 1], by decide, sharedBranch_blocks, fun noCritical => ?_⟩
  exact noCritical 0 List.mem_cons_self
    ⟨.jumpEdge, some 0, some 2, some ⟨2, []⟩, some (.jump ⟨2, []⟩)⟩ (by decide)
    ⟨by decide, 2, rfl, by decide⟩

end Shady.CriticalEdges
