import Shady.Passes.CriticalEdges
import Shady.Library.Search

/-!
# What the pass leaves behind

Each block that the rewriter meets is copied, with its jumps led to new blocks: one for each jump node.
The new blocks jump where these jumps did.
-/

set_option autoImplicit false

namespace Shady.CriticalEdges

open Stateful

variable {f : Function}

/-! ## Addresses -/

theorem lt_unused {a : AbsId} {abs : Abstraction} (got : f.get a = some abs) : a < unused f := by
  obtain ⟨before, after, split, -⟩ := List.lookup_eq_some_iff.mp got
  have listed : a ∈ f.abstractions.map Prod.fst := by
    rw [split]
    simp
  have bound : ∀ (ids : List AbsId), a ∈ ids → a ≤ ids.foldr max 0 := by
    intro ids
    induction ids with
    | nil => exact fun member => nomatch member
    | cons id ids ih =>
        intro member
        rw [List.foldr_cons]
        cases List.mem_cons.mp member with
        | inl same =>
            rw [same]
            exact Nat.le_max_left _ _
        | inr later => exact Nat.le_trans (ih later) (Nat.le_max_right _ _)
  exact Nat.lt_succ_of_le (bound _ listed)

/-! ## States of the rewriter -/

/-- The new block of a jump node. -/
def Rewriting.newBlock (st : Rewriting) (a : AbsId) (jump : Jump) : AbsId :=
  (st.jumps.lookup ⟨a, jump⟩).getD 0

/-- The jumps of a terminator, led to new blocks. -/
def redirect (newBlock : Jump → AbsId) : Terminator → Terminator
  | .jump jump => .jump ⟨newBlock jump, []⟩
  | .branch trueJump falseJump => .branch ⟨newBlock trueJump, []⟩ ⟨newBlock falseJump, []⟩
  | .brSwitch caseJumps defaultJump =>
      .brSwitch (caseJumps.map fun jump => ⟨newBlock jump, []⟩) ⟨newBlock defaultJump, []⟩
  | terminator => terminator

/-- What holds between the calls of the rewriter. -/
structure Valid (f : Function) (st : Rewriting) : Prop where
  below : unused f ≤ st.next
  nodup : st.seen.Nodup
  old : ∀ a ∈ st.seen, a < unused f
  /-- A new block jumps where its jump does. -/
  inserted : ∀ node newBlock, st.jumps.lookup node = some newBlock →
    unused f ≤ newBlock ∧ newBlock < st.next ∧ node.jump.target ∈ st.seen ∧
      st.abstractions.lookup newBlock = some ⟨false, [], some (.jump node.jump)⟩
  apart : ∀ node node' newBlock, st.jumps.lookup node = some newBlock →
    st.jumps.lookup node' = some newBlock → node = node'
  listed : ∀ b abs, st.abstractions.lookup b = some abs →
    b ∈ st.seen ∨ unused f ≤ b ∧ b < st.next

/-- What the rewriter keeps. -/
structure Keeps (st st' : Rewriting) : Prop where
  seen : st.seen ⊆ st'.seen
  next : st.next ≤ st'.next
  jumps : ∀ node newBlock, st.jumps.lookup node = some newBlock →
    st'.jumps.lookup node = some newBlock
  abstractions : ∀ b abs, st.abstractions.lookup b = some abs →
    st'.abstractions.lookup b = some abs

/-- What the rewriter adds: only jumps of `own` and of blocks that were not seen are new. -/
structure Later (f : Function) (own : List AbsId) (st st' : Rewriting) : Prop extends Keeps st st' where
  newJumps : ∀ node newBlock, st'.jumps.lookup node = some newBlock →
    st.jumps.lookup node = some newBlock ∨ node.block ∉ st.seen ∨ node.block ∈ own
  newAbstractions : ∀ b abs, st'.abstractions.lookup b = some abs →
    st.abstractions.lookup b = some abs ∨ b ∉ st.seen ∧ (b < unused f ∨ st.next ≤ b)

/-- The jumps of a terminator have their new blocks, and its structural targets were met. -/
structure Redirected (st : Rewriting) (a : AbsId) (t : Terminator) : Prop where
  jumps : ∀ jump ∈ t.jumps, ∃ newBlock, st.jumps.lookup ⟨a, jump⟩ = some newBlock
  met : ∀ b ∈ t.structuralTargets, b ∈ st.seen

/-- A block that is copied. -/
def Copied (f : Function) (st : Rewriting) (a : AbsId) : Prop :=
  ∃ abs, f.get a = some abs ∧
    st.abstractions.lookup a =
      some { abs with body := abs.body.map (redirect (st.newBlock a)) } ∧
    ∀ t ∈ abs.body, Redirected st a t

/-- A call of the rewriter for some blocks. -/
structure Rewrites (f : Function) (own roots : List AbsId) (st st' : Rewriting) : Prop where
  valid : Valid f st'
  later : Later f own st st'
  met : ∀ b ∈ roots, b ∈ st'.seen
  copied : ∀ b ∈ st'.seen, b ∉ st.seen → Copied f st' b
  reached : ∀ b ∈ st'.seen, b ∉ st.seen → ∃ root ∈ roots,
    Relation.ReflTransGen (fun a b => ∃ t ∈ f.terminator a, b ∈ operands t) root b

theorem Later.refl (own : List AbsId) (st : Rewriting) : Later f own st st where
  seen := List.Subset.refl _
  next := Nat.le_refl _
  jumps _ _ found := found
  abstractions _ _ found := found
  newJumps _ _ found := .inl found
  newAbstractions _ _ found := .inl found

theorem Later.trans {own : List AbsId} {first second third : Rewriting}
    (before : Later f own first second) (after : Later f own second third) :
    Later f own first third where
  seen := List.Subset.trans before.seen after.seen
  next := Nat.le_trans before.next after.next
  jumps node newBlock found := after.jumps node newBlock (before.jumps node newBlock found)
  abstractions b abs found := after.abstractions b abs (before.abstractions b abs found)
  newJumps node newBlock found := by
    cases after.newJumps node newBlock found with
    | inl earlier => exact before.newJumps node newBlock earlier
    | inr new => exact .inr (new.imp_left fun unseen seen => unseen (before.seen seen))
  newAbstractions b abs found := by
    cases after.newAbstractions b abs found with
    | inl earlier => exact before.newAbstractions b abs earlier
    | inr new =>
        refine .inr ⟨fun seen => new.1 (before.seen seen), ?_⟩
        exact new.2.imp_right (Nat.le_trans before.next)

theorem Redirected.later {st st' : Rewriting} {a : AbsId} {t : Terminator}
    (redirected : Redirected st a t) (later : Keeps st st') : Redirected st' a t where
  jumps jump held := by
    obtain ⟨newBlock, found⟩ := redirected.jumps jump held
    exact ⟨newBlock, later.jumps _ newBlock found⟩
  met b held := later.seen (redirected.met b held)

theorem redirect_congr {newBlock newBlock' : Jump → AbsId} {t : Terminator}
    (same : ∀ jump ∈ t.jumps, newBlock jump = newBlock' jump) :
    redirect newBlock t = redirect newBlock' t := by
  cases t with
  | jump jump => rw [redirect, redirect, same jump (by simp [Terminator.jumps])]
  | branch trueJump falseJump =>
      rw [redirect, redirect, same trueJump (by simp [Terminator.jumps]),
        same falseJump (by simp [Terminator.jumps])]
  | brSwitch caseJumps defaultJump =>
      rw [redirect, redirect, same defaultJump (by simp [Terminator.jumps]),
        List.map_congr_left fun jump held => by
          rw [same jump (List.mem_append_left _ held)]]
  | _ => rfl

theorem Redirected.newBlock_later {st st' : Rewriting} {a : AbsId} {t : Terminator}
    (redirected : Redirected st a t) (later : Keeps st st') :
    redirect (st'.newBlock a) t = redirect (st.newBlock a) t := by
  refine redirect_congr fun jump held => ?_
  obtain ⟨newBlock, found⟩ := redirected.jumps jump held
  rw [Rewriting.newBlock, Rewriting.newBlock, found, later.jumps _ newBlock found]

theorem Copied.later {st st' : Rewriting} {a : AbsId} (copied : Copied f st a)
    (later : Keeps st st') : Copied f st' a := by
  obtain ⟨abs, got, listed, redirected⟩ := copied
  refine ⟨abs, got, ?_, fun t held => (redirected t held).later later⟩
  rw [later.abstractions a _ listed]
  cases body : abs.body with
  | none => rfl
  | some t =>
      have same := (redirected t body).newBlock_later later
      rw [Option.map_some, Option.map_some, same]

theorem Rewrites.refl {own : List AbsId} {st : Rewriting} (valid : Valid f st) :
    Rewrites f own [] st st where
  valid := valid
  later := Later.refl own st
  met _ member := nomatch member
  copied _ member unseen := absurd member unseen
  reached _ member unseen := absurd member unseen

theorem Rewrites.trans {own roots roots' : List AbsId} {first second third : Rewriting}
    (before : Rewrites f own roots first second) (after : Rewrites f own roots' second third) :
    Rewrites f own (roots ++ roots') first third where
  valid := after.valid
  later := before.later.trans after.later
  met b member := by
    cases List.mem_append.mp member with
    | inl earlier => exact after.later.seen (before.met b earlier)
    | inr later => exact after.met b later
  copied b member unseen := by
    by_cases earlier : b ∈ second.seen
    · exact (before.copied b earlier unseen).later after.later.toKeeps
    · exact after.copied b member earlier
  reached b member unseen := by
    by_cases earlier : b ∈ second.seen
    · obtain ⟨root, held, leads⟩ := before.reached b earlier unseen
      exact ⟨root, List.mem_append_left _ held, leads⟩
    · obtain ⟨root, held, leads⟩ := after.reached b member earlier
      exact ⟨root, List.mem_append_right _ held, leads⟩

/-! ## The calls -/

/-- What is left to see bounds the depth of the rewriter. -/
def Deep (f : Function) (fuel : Nat) (st : Rewriting) : Prop :=
  Search.left (f.abstractions.map Prod.fst) st.seen < fuel

theorem Rewrites.deep {own roots : List AbsId} {st st' : Rewriting} {fuel : Nat}
    (rewrites : Rewrites f own roots st st') (deep : Deep f fuel st) : Deep f fuel st' :=
  Nat.lt_of_le_of_lt (Search.left_le rewrites.later.seen) deep

/-- The rewriter does what it is called for. -/
def RewritesNode (f : Function) (fuel : Nat) (rewriteNode : AbsId → M PUnit) : Prop :=
  ∀ b st, (∃ abs, f.get b = some abs) → Valid f st → Deep f fuel st →
    ∃ st', (rewriteNode b).run st = .ok ((), st') ∧ Rewrites f [] [b] st st'

theorem Later.weaken (own : List AbsId) {st st' : Rewriting} (later : Later f [] st st') :
    Later f own st st' :=
  { later with
    newJumps := fun node newBlock found => (later.newJumps node newBlock found).imp_right
      fun new => .inl (new.resolve_right fun member => nomatch member) }

theorem Rewrites.weaken (own : List AbsId) {roots : List AbsId} {st st' : Rewriting}
    (rewrites : Rewrites f [] roots st st') : Rewrites f own roots st st' :=
  { rewrites with later := rewrites.later.weaken own }

/-- The next address is not taken. -/
theorem Valid.next_unlisted {st : Rewriting} (valid : Valid f st) :
    st.abstractions.lookup st.next = none := by
  cases found : st.abstractions.lookup st.next with
  | none => rfl
  | some abs =>
      cases valid.listed _ _ found with
      | inl seen =>
          exact absurd (valid.old _ seen) (Nat.not_lt.mpr valid.below)
      | inr new => exact absurd new.2 (Nat.lt_irrefl _)

theorem Valid.grow {st : Rewriting} (valid : Valid f st) :
    Valid f { st with next := st.next + 1 } where
  below := Nat.le_succ_of_le valid.below
  nodup := valid.nodup
  old := valid.old
  inserted node newBlock found := by
    have before := valid.inserted node newBlock found
    exact ⟨before.1, Nat.lt_succ_of_lt before.2.1, before.2.2⟩
  apart := valid.apart
  listed b abs found := (valid.listed b abs found).imp_right fun new => ⟨new.1, Nat.lt_succ_of_lt new.2⟩

/-- A jump that has no new block yet gets one, behind what its target leads to. -/
theorem processJump_rewrites {fuel : Nat} {rewriteNode : AbsId → M PUnit}
    (spec : RewritesNode f fuel rewriteNode) {st : Rewriting} {node : JumpNode}
    (isBlock : f.IsBlock node.jump.target) (valid : Valid f st) (deep : Deep f fuel st)
    (inside : node.block ∈ st.seen) (absent : st.jumps.lookup node = none) :
    ∃ st', (processJump rewriteNode node).run st = .ok (⟨st'.newBlock node.block node.jump, []⟩, st') ∧
      (∃ newBlock, st'.jumps.lookup node = some newBlock) ∧
      Rewrites f [node.block] [node.jump.target] st st' := by
  obtain ⟨st₂, ran, rewrites⟩ := spec node.jump.target { st with next := st.next + 1 }
    (isBlock.imp fun _ isBlock => isBlock.1) valid.grow deep
  have later := rewrites.later
  have valid₂ := rewrites.valid
  have unlisted : st₂.abstractions.lookup st.next = none := by
    cases found : st₂.abstractions.lookup st.next with
    | none => rfl
    | some abs =>
        cases later.newAbstractions _ _ found with
        | inl earlier =>
            have before := valid.next_unlisted
            rw [before] at earlier
            exact nomatch earlier
        | inr new =>
            cases new.2 with
            | inl old => exact absurd old (Nat.not_lt.mpr valid.below)
            | inr later => exact absurd later (Nat.not_succ_le_self st.next)
  have stillAbsent : st₂.jumps.lookup node = none := by
    cases found : st₂.jumps.lookup node with
    | none => rfl
    | some newBlock =>
        cases later.newJumps _ _ found with
        | inl earlier =>
            have before : st.jumps.lookup node = some newBlock := earlier
            rw [absent] at before
            exact nomatch before
        | inr new =>
            cases new with
            | inl unseen => exact absurd inside unseen
            | inr own => exact nomatch own
  let abs : Abstraction := ⟨false, [], some (.jump node.jump)⟩
  let st₃ : Rewriting := { st₂ with
    abstractions := (st.next, abs) :: st₂.abstractions
    jumps := (node, st.next) :: st₂.jumps }
  have nextIn : st.next < st₂.next := later.next
  have found₃ : st₃.jumps.lookup node = some st.next := List.lookup_cons_self
  have kept : ∀ b abs, st₂.abstractions.lookup b = some abs →
      st₃.abstractions.lookup b = some abs := by
    intro b abs' found
    have other : b ≠ st.next := by
      rintro rfl
      rw [unlisted] at found
      exact nomatch found
    rw [List.lookup_cons, beq_false_of_ne other]
    exact found
  have keptJumps : ∀ node' newBlock, st₂.jumps.lookup node' = some newBlock →
      st₃.jumps.lookup node' = some newBlock := by
    intro node' newBlock found
    have other : node' ≠ node := by
      rintro rfl
      rw [stillAbsent] at found
      exact nomatch found
    rw [List.lookup_cons, beq_false_of_ne other]
    exact found
  have keeps : Keeps st₂ st₃ := ⟨List.Subset.refl _, Nat.le_refl _, keptJumps, kept⟩
  have later₃ : Later f [node.block] st st₃ := {
    seen := later.seen
    next := Nat.le_of_lt nextIn
    jumps := fun node' newBlock found => keptJumps _ _ (later.jumps _ _ found)
    abstractions := fun b abs' found => kept _ _ (later.abstractions _ _ found)
    newJumps := fun node' newBlock found => by
      rw [List.lookup_cons] at found
      by_cases same : node' = node
      · exact .inr (.inr (by rw [same]; exact List.mem_cons_self))
      · rw [beq_false_of_ne same] at found
        exact (later.weaken [node.block]).newJumps _ _ found
    newAbstractions := fun b abs' found => by
      rw [List.lookup_cons] at found
      by_cases same : b = st.next
      · refine .inr ⟨fun seen => ?_, .inr (Nat.le_of_eq same.symm)⟩
        rw [same] at seen
        exact absurd (valid.old _ seen) (Nat.not_lt.mpr valid.below)
      · rw [beq_false_of_ne same] at found
        exact (later.newAbstractions _ _ found).imp_right
          fun new => ⟨new.1, new.2.imp_right Nat.le_of_succ_le⟩ }
  have valid₃ : Valid f st₃ := {
    below := valid₂.below
    nodup := valid₂.nodup
    old := valid₂.old
    inserted := fun node' newBlock found => by
      rw [List.lookup_cons] at found
      by_cases same : node' = node
      · rw [same, beq_self_eq_true] at found
        cases found
        rw [same]
        refine ⟨valid.below, nextIn, rewrites.met _ List.mem_cons_self, List.lookup_cons_self⟩
      · rw [beq_false_of_ne same] at found
        have before := valid₂.inserted node' newBlock found
        exact ⟨before.1, before.2.1, before.2.2.1, kept _ _ before.2.2.2⟩
    apart := fun node' node'' newBlock found found' => by
      have new : ∀ other, st₂.jumps.lookup other = some st.next → False := by
        intro other earlier
        have set := (valid₂.inserted other st.next earlier).2.2.2
        rw [unlisted] at set
        exact nomatch set
      rw [List.lookup_cons] at found found'
      by_cases same : node' = node
      · by_cases same' : node'' = node
        · rw [same, same']
        · rw [same, beq_self_eq_true] at found
          rw [beq_false_of_ne same'] at found'
          cases found
          exact (new _ found').elim
      · rw [beq_false_of_ne same] at found
        by_cases same' : node'' = node
        · rw [same', beq_self_eq_true] at found'
          cases found'
          exact (new _ found).elim
        · rw [beq_false_of_ne same'] at found'
          exact valid₂.apart _ _ _ found found'
    listed := fun b abs' found => by
      rw [List.lookup_cons] at found
      by_cases same : b = st.next
      · exact .inr ⟨same ▸ valid.below, same ▸ nextIn⟩
      · rw [beq_false_of_ne same] at found
        exact valid₂.listed _ _ found }
  refine ⟨st₃, ?_, ⟨st.next, found₃⟩, valid₃, later₃, ?_, ?_, ?_⟩
  · have own : st₃.newBlock node.block node.jump = st.next := by
      rw [Rewriting.newBlock, found₃]
      rfl
    rw [own, processJump]
    change ((rewriteNode node.jump.target >>= fun _ => _).run { st with next := st.next + 1 }) = _
    rw [run_bind_of_ok ran]
    rfl
  · exact rewrites.met
  · exact fun b member unseen => (rewrites.copied b member unseen).later keeps
  · exact rewrites.reached

theorem rewriteJump_rewrites {fuel : Nat} {rewriteNode : AbsId → M PUnit}
    (spec : RewritesNode f fuel rewriteNode) {st : Rewriting} {a : AbsId} {jump : Jump}
    (isBlock : f.IsBlock jump.target) (valid : Valid f st) (deep : Deep f fuel st)
    (inside : a ∈ st.seen) :
    ∃ st', (rewriteJump rewriteNode ⟨a, jump⟩).run st = .ok (⟨st'.newBlock a jump, []⟩, st') ∧
      (∃ newBlock, st'.jumps.lookup ⟨a, jump⟩ = some newBlock) ∧
      Rewrites f [a] [jump.target] st st' := by
  rw [rewriteJump, run_bind_of_ok (run_get st)]
  cases found : st.jumps.lookup ⟨a, jump⟩ with
  | none => exact processJump_rewrites spec isBlock valid deep inside found
  | some newBlock =>
      refine ⟨st, ?_, ⟨newBlock, found⟩, ?_⟩
      · rw [Rewriting.newBlock, found]
        rfl
      · exact {
          Rewrites.refl valid with
          met := fun b member => by
            rw [List.mem_singleton.mp member]
            exact (valid.inserted _ _ found).2.2.1
          reached := fun _ member unseen => absurd member unseen }

/-- The jumps of a list, in order. -/
theorem rewriteJumps_rewrites {fuel : Nat} {rewriteNode : AbsId → M PUnit}
    (spec : RewritesNode f fuel rewriteNode) {a : AbsId} (jumps : List Jump) :
    (∀ jump ∈ jumps, f.IsBlock jump.target) → ∀ {st : Rewriting}, Valid f st → Deep f fuel st →
      a ∈ st.seen → ∃ st', (jumps.mapM fun jump => rewriteJump rewriteNode ⟨a, jump⟩).run st =
          .ok (jumps.map fun jump => ⟨st'.newBlock a jump, []⟩, st') ∧
        (∀ jump ∈ jumps, ∃ newBlock, st'.jumps.lookup ⟨a, jump⟩ = some newBlock) ∧
        Rewrites f [a] (jumps.map Jump.target) st st' := by
  induction jumps with
  | nil =>
      intro _ st valid _ _
      exact ⟨st, rfl, (fun _ member => nomatch member), .refl valid⟩
  | cons jump jumps ih =>
      intro blocks st valid deep inside
      obtain ⟨st₂, ran, ⟨newBlock, found⟩, first⟩ :=
        rewriteJump_rewrites spec (blocks jump List.mem_cons_self) valid deep inside
      obtain ⟨st₃, ran', found', rest⟩ :=
        ih (fun other held => blocks other (List.mem_cons_of_mem _ held)) first.valid
          (first.deep deep) (first.later.seen inside)
      have found₃ := rest.later.jumps _ _ found
      refine ⟨st₃, ?_, ?_, first.trans rest⟩
      · rw [List.mapM_cons, run_bind_of_ok ran, run_bind_of_ok ran', List.map_cons,
          Rewriting.newBlock, Rewriting.newBlock, found, found₃]
        rfl
      · intro other held
        cases List.mem_cons.mp held with
        | inl same =>
            rw [same]
            exact ⟨newBlock, found₃⟩
        | inr later => exact found' other later

/-- The structural targets, in order. -/
theorem rewriteNodes_rewrites {fuel : Nat} {rewriteNode : AbsId → M PUnit}
    (spec : RewritesNode f fuel rewriteNode) (own : List AbsId) (nodes : List AbsId) :
    (∀ b ∈ nodes, f.IsBlock b) → ∀ {st : Rewriting}, Valid f st → Deep f fuel st →
      ∃ st', (nodes.forM rewriteNode).run st = .ok ((), st') ∧ Rewrites f own nodes st st' := by
  induction nodes with
  | nil =>
      intro _ st valid _
      exact ⟨st, rfl, .refl valid⟩
  | cons b nodes ih =>
      intro blocks st valid deep
      obtain ⟨st₂, ran, first⟩ := spec b st
        ((blocks b List.mem_cons_self).imp fun _ isBlock => isBlock.1) valid deep
      obtain ⟨st₃, ran', rest⟩ := ih (fun other held => blocks other (List.mem_cons_of_mem _ held))
        first.valid (first.deep deep)
      refine ⟨st₃, ?_, (first.weaken own).trans rest⟩
      change (rewriteNode b >>= fun _ => nodes.forM rewriteNode).run st = _
      rw [run_bind_of_ok ran]
      exact ran'

/-- A terminator is copied with its jumps redirected. -/
theorem rewriteTerminator_rewrites {fuel : Nat} {rewriteNode : AbsId → M PUnit}
    (spec : RewritesNode f fuel rewriteNode) {a : AbsId} (t : Terminator)
    (blocks : ∀ b ∈ operands t, f.IsBlock b) {st : Rewriting} (valid : Valid f st)
    (deep : Deep f fuel st) (inside : a ∈ st.seen) :
    ∃ st', (rewriteTerminator rewriteNode a t).run st =
        .ok (redirect (st'.newBlock a) t, st') ∧
      Redirected st' a t ∧ Rewrites f [a] (operands t) st st' := by
  have jumpBlocks : ∀ jump ∈ t.jumps, f.IsBlock jump.target := fun jump held =>
    blocks _ (List.mem_append_left _ (List.mem_map_of_mem held))
  have others : t.jumps = [] → rewriteTerminator rewriteNode a t = (do
      t.structuralTargets.forM rewriteNode
      return t) → (∀ newBlock, redirect newBlock t = t) →
      ∃ st', (rewriteTerminator rewriteNode a t).run st = .ok (redirect (st'.newBlock a) t, st') ∧
        Redirected st' a t ∧ Rewrites f [a] (operands t) st st' := by
    intro noJumps same unchanged
    have operandsEq : operands t = t.structuralTargets := by
      rw [operands, noJumps, List.map_nil, List.nil_append]
    obtain ⟨st', ran, rewrites⟩ := rewriteNodes_rewrites spec [a] t.structuralTargets
      (operandsEq ▸ blocks) valid deep
    refine ⟨st', ?_, ⟨fun jump held => ?_, rewrites.met⟩, operandsEq ▸ rewrites⟩
    · rw [same, unchanged, run_bind_of_ok ran]
      rfl
    · rw [noJumps] at held
      exact nomatch held
  cases t with
  | jump jump =>
      obtain ⟨st', ran, found, rewrites⟩ :=
        rewriteJump_rewrites spec (jumpBlocks jump List.mem_cons_self) valid deep inside
      refine ⟨st', ?_, ⟨fun other held => ?_, fun b held => nomatch held⟩, rewrites⟩
      · rw [rewriteTerminator, run_bind_of_ok ran]
        rfl
      · rw [List.mem_singleton.mp held]
        exact found
  | branch trueJump falseJump =>
      obtain ⟨st', ran, found, rewrites⟩ :=
        rewriteJumps_rewrites spec [trueJump, falseJump] jumpBlocks valid deep inside
      refine ⟨st', ?_, ⟨found, fun b held => nomatch held⟩, rewrites⟩
      have both : rewriteTerminator rewriteNode a (.branch trueJump falseJump) = (do
          let jumps ← [trueJump, falseJump].mapM fun jump => rewriteJump rewriteNode ⟨a, jump⟩
          return .branch (jumps.getD 0 trueJump) (jumps.getD 1 falseJump)) := by
        simp [rewriteTerminator, List.mapM_cons]
      rw [both, run_bind_of_ok ran]
      rfl
  | brSwitch caseJumps defaultJump =>
      obtain ⟨st₂, ran, found, first⟩ := rewriteJumps_rewrites spec caseJumps
        (fun jump held => jumpBlocks jump (List.mem_append_left _ held)) valid deep inside
      obtain ⟨st₃, ran', found', rest⟩ := rewriteJump_rewrites spec
        (jumpBlocks defaultJump (List.mem_append_right _ List.mem_cons_self)) first.valid
        (first.deep deep) (first.later.seen inside)
      have kept : ∀ jump ∈ caseJumps, st₃.newBlock a jump = st₂.newBlock a jump := by
        intro jump held
        obtain ⟨newBlock, here⟩ := found jump held
        rw [Rewriting.newBlock, Rewriting.newBlock, here, rest.later.jumps _ _ here]
      refine ⟨st₃, ?_, ⟨fun jump held => ?_, fun b held => nomatch held⟩, ?_⟩
      · rw [rewriteTerminator, run_bind_of_ok ran, run_bind_of_ok ran', redirect,
          List.map_congr_left fun jump held => by rw [← kept jump held]]
        rfl
      · cases List.mem_append.mp held with
        | inl inCases =>
            obtain ⟨newBlock, here⟩ := found jump inCases
            exact ⟨newBlock, rest.later.jumps _ _ here⟩
        | inr isDefault =>
            rw [List.mem_singleton.mp isDefault]
            exact found'
      · have targets : operands (.brSwitch caseJumps defaultJump) =
            caseJumps.map Jump.target ++ [defaultJump.target] := by
          simp [operands, Terminator.jumps, Terminator.structuralTargets, Terminator.bodies,
            Terminator.tail?]
        rw [targets]
        exact first.trans rest
  | ifInstr | matchInstr | loopInstr | control | join | mergeSelection | mergeContinue
  | mergeBreak | tailCall | fnRet | unreachable => exact others rfl rfl fun _ => rfl

theorem Valid.see {st : Rewriting} {a : AbsId} {abs : Abstraction} (valid : Valid f st)
    (got : f.get a = some abs) (unseen : a ∉ st.seen) :
    Valid f { st with seen := a :: st.seen } where
  below := valid.below
  nodup := List.nodup_cons.mpr ⟨unseen, valid.nodup⟩
  old b member := by
    cases List.mem_cons.mp member with
    | inl same => exact same ▸ lt_unused got
    | inr seen => exact valid.old b seen
  inserted node newBlock found := by
    have before := valid.inserted node newBlock found
    exact ⟨before.1, before.2.1, List.mem_cons_of_mem a before.2.2.1, before.2.2.2⟩
  apart := valid.apart
  listed b abs' found := (valid.listed b abs' found).imp_left (List.mem_cons_of_mem a)

/-- The body of a block is set when all that it holds is copied. -/
theorem Rewrites.close {st st₂ : Rewriting} {a : AbsId} {abs : Abstraction} {roots : List AbsId}
    (valid : Valid f st) (unseen : a ∉ st.seen) (got : f.get a = some abs)
    (redirected : ∀ t ∈ abs.body, Redirected st₂ a t)
    (held : ∀ b ∈ roots, ∃ t ∈ abs.body, b ∈ operands t)
    (rewrites : Rewrites f [a] roots { st with seen := a :: st.seen } st₂) :
    Rewrites f [] [a] st { st₂ with abstractions :=
      (a, { abs with body := abs.body.map (redirect (st₂.newBlock a)) }) :: st₂.abstractions } := by
  have later := rewrites.later
  have valid₂ := rewrites.valid
  have here : a ∈ st₂.seen := later.seen List.mem_cons_self
  have unlisted : st₂.abstractions.lookup a = none := by
    cases found : st₂.abstractions.lookup a with
    | none => rfl
    | some abs' =>
        cases later.newAbstractions _ _ found with
        | inl earlier =>
            cases valid.listed _ _ earlier with
            | inl seen => exact absurd seen unseen
            | inr new => exact absurd (lt_unused got) (Nat.not_lt.mpr new.1)
        | inr new => exact absurd List.mem_cons_self new.1
  let abs₂ : Abstraction := { abs with body := abs.body.map (redirect (st₂.newBlock a)) }
  let st₃ : Rewriting := { st₂ with abstractions := (a, abs₂) :: st₂.abstractions }
  have kept : ∀ b abs', st₂.abstractions.lookup b = some abs' →
      st₃.abstractions.lookup b = some abs' := by
    intro b abs' found
    have other : b ≠ a := by
      rintro rfl
      rw [unlisted] at found
      exact nomatch found
    rw [List.lookup_cons, beq_false_of_ne other]
    exact found
  have keeps : Keeps st₂ st₃ :=
    ⟨List.Subset.refl _, Nat.le_refl _, fun _ _ found => found, kept⟩
  exact {
    valid := {
      below := valid₂.below
      nodup := valid₂.nodup
      old := valid₂.old
      inserted := fun node newBlock found => by
        have before := valid₂.inserted node newBlock found
        exact ⟨before.1, before.2.1, before.2.2.1, kept _ _ before.2.2.2⟩
      apart := valid₂.apart
      listed := fun b abs' found => by
        rw [List.lookup_cons] at found
        by_cases same : b = a
        · exact .inl (same ▸ here)
        · rw [beq_false_of_ne same] at found
          exact valid₂.listed _ _ found }
    later := {
      seen := fun b member => later.seen (List.mem_cons_of_mem a member)
      next := later.next
      jumps := later.jumps
      abstractions := fun b abs' found => kept _ _ (later.abstractions _ _ found)
      newJumps := fun node newBlock found => by
        refine (later.newJumps _ _ found).imp_right fun new => .inl fun seen => ?_
        cases new with
        | inl unseen' => exact unseen' (List.mem_cons_of_mem a seen)
        | inr own => exact unseen (List.mem_singleton.mp own ▸ seen)
      newAbstractions := fun b abs' found => by
        rw [List.lookup_cons] at found
        by_cases same : b = a
        · rw [same]
          exact .inr ⟨unseen, .inl (lt_unused got)⟩
        · rw [beq_false_of_ne same] at found
          exact (later.newAbstractions _ _ found).imp_right
            fun new => ⟨fun seen => new.1 (List.mem_cons_of_mem a seen), new.2⟩ }
    met := fun b member => List.mem_singleton.mp member ▸ here
    copied := fun b member unseen' => by
      by_cases same : b = a
      · rw [same]
        exact ⟨abs, got, List.lookup_cons_self, fun t isBody => (redirected t isBody).later keeps⟩
      · refine (rewrites.copied b member fun seen => ?_).later keeps
        exact (List.mem_cons.mp seen).elim same unseen'
    reached := fun b member unseen' => by
      refine ⟨a, List.mem_cons_self, ?_⟩
      by_cases same : b = a
      · rw [same]
      · obtain ⟨root, isRoot, leads⟩ := rewrites.reached b member fun seen =>
          (List.mem_cons.mp seen).elim same unseen'
        obtain ⟨t, isBody, isOperand⟩ := held root isRoot
        refine leads.head ⟨t, ?_, isOperand⟩
        rw [Function.terminator, got]
        exact isBody }

/-- With enough depth, a block is copied, and all that it leads to; by induction on the depth. -/
theorem rewriteAbstraction_rewrites (closed : Closed f) (fuel : Nat) :
    RewritesNode f fuel (rewriteAbstraction f fuel) := by
  induction fuel with
  | zero => exact fun _ _ _ _ deep => absurd deep (Nat.not_lt_zero _)
  | succ fuel ih =>
      intro a st isThere valid deep
      obtain ⟨abs, got⟩ := isThere
      rw [rewriteAbstraction, run_bind_of_ok (run_get st)]
      by_cases known : a ∈ st.seen
      · rw [if_pos known]
        refine ⟨st, rfl, ?_⟩
        exact { Rewrites.refl valid with
          met := fun b member => List.mem_singleton.mp member ▸ known
          reached := fun _ member unseen => absurd member unseen }
      · have listed : a ∈ f.abstractions.map Prod.fst := by
          obtain ⟨before, after, split, -⟩ := List.lookup_eq_some_iff.mp got
          rw [split]
          simp
        have deep₁ : Deep f fuel { st with seen := a :: st.seen } :=
          Nat.lt_of_lt_of_le (Search.left_lt listed known) (Nat.lt_succ_iff.mp deep)
        rw [if_neg known, got]
        simp only
        rw [run_bind_of_ok (run_modify _ st)]
        cases body : abs.body with
        | none =>
            have noRoots : ∀ b ∈ ([] : List AbsId), ∃ t ∈ abs.body, b ∈ operands t :=
              fun _ member => nomatch member
            have closes := Rewrites.close valid known got (fun t isBody => by
              rw [body] at isBody
              exact nomatch isBody) noRoots (.refl (valid.see got known))
            refine ⟨_, ?_, closes⟩
            have same : abs = { abs with body := abs.body.map (redirect
                (Rewriting.newBlock { st with seen := a :: st.seen } a)) } := by
              rw [body, Option.map_none, ← body]
            rw [← same]
            rfl
        | some t =>
            have isTerminator : t ∈ f.terminator a := by
              rw [Function.terminator, got]
              exact body
            obtain ⟨st₂, ran, redirected, rewrites⟩ := rewriteTerminator_rewrites ih t
              (closed.operands a t isTerminator) (valid.see got known) deep₁ List.mem_cons_self
            have closes := Rewrites.close valid known got (fun t' isBody => by
              rw [body] at isBody
              exact Option.some.inj isBody ▸ redirected)
              (fun b member => ⟨t, body, member⟩) rewrites
            refine ⟨_, ?_, closes⟩
            simp only
            rw [run_bind_of_ok ran, setAbstractionBody, run_modify, body]
            rfl

end Shady.CriticalEdges
