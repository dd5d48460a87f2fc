import Shady.Analysis.LexicalSearch

/-!
# Graphs of lexically nested functions

The builder neither fails nor rejects a function whose constructs are nested lexically. Its
graph has an edge for each jump, body, tail and way out of a block, and the ways out are the
right ones exactly when the merges stand in the constructs that the search entered last.
-/

set_option autoImplicit false

namespace Shady
open Fallible

namespace Function
variable {f : Function} {scope : AbsId → List Frame} {path : List AbsId} {a : AbsId}

/-! ## Constructs entered on a path -/

theorem tail_of_frame {t : Terminator} {frame : Frame} (around : f.frame t = some frame) :
    t.tail? = some frame.tail := by
  cases t with
  | ifInstr ifTrue ifFalse tail => cases around; rfl
  | matchInstr cases' defaultCase tail => cases around; rfl
  | loopInstr body tail => cases around; rfl
  | control inside tail =>
      rw [Function.frame, Option.map_eq_some_iff] at around
      obtain ⟨token, -, equal⟩ := around
      cases equal
      rfl
  | _ => cases around

theorem body_of_frame {t : Terminator} {frame : Frame} (around : f.frame t = some frame) {body : AbsId}
    (isBody : frame.body? = some body) : body ∈ t.bodies := by
  cases t with
  | ifInstr ifTrue ifFalse tail => cases around; cases isBody
  | matchInstr cases' defaultCase tail => cases around; cases isBody
  | loopInstr body tail =>
      cases around
      cases isBody
      exact List.mem_singleton.mpr rfl
  | control inside tail =>
      rw [Function.frame, Option.map_eq_some_iff] at around
      obtain ⟨token, -, equal⟩ := around
      cases equal
      cases isBody
  | _ => cases around

theorem mem_entered : ∀ (path : List AbsId) (a : AbsId) {frame : Frame}, frame ∈ f.entered path a →
    ∃ c ∈ path, ∃ t, f.terminator c = some t ∧ f.frame t = some frame
  | [], _, _, member => nomatch member
  | p :: path, a, frame, member => by
      rw [entered, List.mem_append] at member
      cases member with
      | inl own =>
          rw [Option.mem_toList, enters, Option.bind_eq_some_iff] at own
          obtain ⟨t, ends, around⟩ := own
          split at around
          · exact ⟨p, List.mem_cons_self, t, ends, around⟩
          · cases around
      | inr outer =>
          obtain ⟨c, member, rest⟩ := mem_entered path p outer
          exact ⟨c, List.mem_cons_of_mem _ member, rest⟩

theorem entered_blocks (nested : f.Nested scope) {frame : Frame} (member : frame ∈ f.entered path a) :
    f.IsBlock frame.tail ∧ ∀ body ∈ frame.body?, f.IsBlock body := by
  obtain ⟨c, -, t, ends, around⟩ := mem_entered path a member
  refine ⟨(nested.tails c t ends _ (tail_of_frame around)).1, fun body isBody => ?_⟩
  exact (nested.bodies c t ends body (body_of_frame around isBody)).1

/-! ## The search and the builder -/

section Search
variable (f scope)

/-- What the builder and the search have found in addition. -/
structure Grown (state after : BuildState) (more : List (AbsId × List AbsId)) : Prop where
  nodes : after.nodes = more.map Prod.fst ++ state.nodes
  fresh : ∀ found ∈ more, found.1 ∉ state.nodes
  added : ∀ found ∈ more,
    (after.succEdges found.1).Perm (f.edgesIn (f.entered found.2 found.1) found.1)
  sound : ∀ found ∈ more, f.Sound scope found.2 found.1
  paths : ∀ found ∈ more, ∀ c ∈ found.2, c ∈ after.nodes
  bare : ∀ b, b ∉ after.nodes → after.succEdges b = []
  joinPointValues : state.joinPointValues ⊆ after.joinPointValues
  tokens : f.TokensOf after.joinPointValues

/-- What a block needs when it is found. -/
structure Findable (path : List AbsId) (a : AbsId) (state : BuildState) : Prop where
  known : ∃ abs, f.get a = some abs ∧ (abs.isFunction = true → a = f.self)
  sound : f.Sound scope path a
  settled : ∀ frame ∈ f.entered path a, Settled state.nodes state.joinPointValues a frame
  path : ∀ c ∈ path, c ∈ state.nodes

def remaining (state : BuildState) : Nat :=
  f.abstractions.countP fun entry => decide (entry.1 ∉ state.nodes)

/-- With enough fuel, a call of `get_or_enqueue` finds what the search finds. -/
def InStep (fuel : Nat) : Prop :=
  ∀ path a (state : BuildState) found, found.map Prod.fst = state.nodes →
    (∀ b, b ∉ state.nodes → state.succEdges b = []) → f.TokensOf state.joinPointValues →
    (∃ abs, f.get a = some abs ∧ (abs.isFunction = true → a = f.self)) →
    (a ∉ state.nodes → f.Findable scope path a state) → f.remaining state < fuel →
    ∃ after more, getOrEnqueue f.forward fuel (constructsOf (f.entered path a)) a state = .ok after ∧
      depthFirst (f.searchOrder scope) fuel path a found = more ++ found ∧
      f.Grown scope state after more ∧ (∀ b ∈ state.nodes, after.succEdges b = state.succEdges b) ∧
      a ∈ after.nodes

end Search

theorem Grown.refl {state : BuildState} (bare : ∀ b, b ∉ state.nodes → state.succEdges b = [])
    (tokens : f.TokensOf state.joinPointValues) : f.Grown scope state state [] where
  nodes := rfl
  fresh := nofun
  added := nofun
  sound := nofun
  paths := nofun
  bare := bare
  joinPointValues := List.Subset.refl _
  tokens := tokens

/-- What was found before keeps its edges, all but the block that is being processed. -/
theorem Grown.trans {state middle after : BuildState} {first second : List (AbsId × List AbsId)}
    (before : f.Grown scope state middle first) (later : f.Grown scope middle after second)
    (here : a ∈ state.nodes)
    (kept : ∀ b ∈ middle.nodes, b ≠ a → after.succEdges b = middle.succEdges b) :
    f.Grown scope state after (second ++ first) where
  nodes := by rw [later.nodes, before.nodes, List.map_append, List.append_assoc]
  fresh found member := by
    cases List.mem_append.mp member with
    | inl inSecond =>
        have unknown := later.fresh found inSecond
        rw [before.nodes, List.mem_append, not_or] at unknown
        exact unknown.2
    | inr inFirst => exact before.fresh found inFirst
  added found member := by
    cases List.mem_append.mp member with
    | inl inSecond => exact later.added found inSecond
    | inr inFirst =>
        have known : found.1 ∈ middle.nodes := by
          rw [before.nodes]
          exact List.mem_append_left _ (List.mem_map_of_mem inFirst)
        rw [kept found.1 known fun same => before.fresh found inFirst (same ▸ here)]
        exact before.added found inFirst
  sound found member := by
    cases List.mem_append.mp member with
    | inl inSecond => exact later.sound found inSecond
    | inr inFirst => exact before.sound found inFirst
  paths found member c onPath := by
    cases List.mem_append.mp member with
    | inl inSecond => exact later.paths found inSecond c onPath
    | inr inFirst =>
        rw [later.nodes]
        exact List.mem_append_right _ (before.paths found inFirst c onPath)
  bare := later.bare
  joinPointValues := List.Subset.trans before.joinPointValues later.joinPointValues
  tokens := later.tokens

theorem Grown.subset {state after : BuildState} {more : List (AbsId × List AbsId)}
    (grown : f.Grown scope state after more) : state.nodes ⊆ after.nodes := by
  rw [grown.nodes]
  exact List.subset_append_right _ _

theorem remaining_le {state after : BuildState} (grows : state.nodes ⊆ after.nodes) :
    f.remaining after ≤ f.remaining state := by
  refine List.countP_mono_left fun entry _ unknown => ?_
  rw [decide_eq_true_iff] at unknown ⊢
  exact fun known => unknown (grows known)

theorem remaining_lt {state : BuildState} {abs : Abstraction} (got : f.get a = some abs)
    (unknown : a ∉ state.nodes) {after : BuildState} (nodes : after.nodes = a :: state.nodes) :
    f.remaining after < f.remaining state := by
  obtain ⟨before, rest, split, -⟩ := List.lookup_eq_some_iff.mp got
  have member : (a, abs) ∈ f.abstractions := by rw [split]; simp
  refine countP_lt ?_ member ?_ ?_
  · intro entry _ stillUnknown
    rw [nodes] at stillUnknown
    simp only [decide_eq_true_eq, List.mem_cons, not_or] at stillUnknown ⊢
    exact stillUnknown.2
  · simp [nodes]
  · simpa using unknown

/-- Recording an edge out of a block that is being processed. -/
theorem Grown.record {state after : BuildState} {more : List (AbsId × List AbsId)} (r : EdgeRequest)
    (grown : f.Grown scope state after more) (here : a ∈ state.nodes) :
    f.Grown scope state (after.record a r) more where
  nodes := grown.nodes
  fresh := grown.fresh
  added found member := by
    have other : found.1 ≠ a := fun same => grown.fresh found member (same ▸ here)
    have same : (after.record a r).succEdges found.1 = after.succEdges found.1 := by
      simp [BuildState.record, appendAt, other]
    rw [same]
    exact grown.added found member
  sound := grown.sound
  paths := grown.paths
  bare b unknown := by
    have other : b ≠ a := by
      intro same
      rw [same] at unknown
      exact unknown (grown.subset here)
    have same : (after.record a r).succEdges b = after.succEdges b := by
      simp [BuildState.record, appendAt, other]
    rw [same]
    exact grown.bare b unknown
  joinPointValues := grown.joinPointValues
  tokens := grown.tokens

theorem addEdge_eq {enqueue : Constructs → AbsId → BuildState → Except CfgError BuildState}
    {r : EdgeRequest} {state after : BuildState} (isBlock : f.IsBlock r.dst)
    (enqueued : enqueue r.constructs r.dst state = .ok after) :
    addEdge f.forward enqueue a state r = .ok (after.record a r) := by
  obtain ⟨abs, got, plain⟩ := isBlock
  have got' : f.forward.function.get r.dst = some abs := got
  have kept : edgeKept f.forward r.dst = .ok true := rfl
  simp only [addEdge, got', plain, kept, bind, Except.bind, enqueued, pure, Except.pure, Bool.false_eq_true,
    if_false, if_true]

theorem getOrEnqueue_found {fuel : Nat} {constructs : Constructs} {state : BuildState} {abs : Abstraction}
    (got : f.get a = some abs) (allowed : abs.isFunction = true → a = f.self) (known : a ∈ state.nodes) :
    getOrEnqueue f.forward (fuel + 1) constructs a state = .ok state := by
  have got' : f.forward.function.get a = some abs := got
  have self' : f.forward.function.self = f.self := rfl
  rw [getOrEnqueue]
  simp only [got', self']
  rw [if_neg fun wrong => wrong.2 (allowed wrong.1), if_pos known]

theorem depthFirst_found {successors : AbsId → List AbsId} {fuel : Nat} {found : List (AbsId × List AbsId)}
    (known : a ∈ found.map Prod.fst) : depthFirst successors (fuel + 1) path a found = found := by
  rw [depthFirst, if_pos known]

/-- The edges of a block are added while the search goes on from it. -/
theorem addEdges_inStep {fuel : Nat} (spec : f.InStep scope fuel) {nodes : List AbsId}
    {before jpv : List (ValueId × AbsId)} {all : List EdgeRequest}
    (asked : Asked f scope path a nodes before jpv all) : ∀ (earlier rs : List EdgeRequest) (ds : List AbsId),
    all = earlier ++ rs → List.Forall₂ (f.Follows scope path a nodes) rs ds →
    ∀ (state : BuildState) (found : List (AbsId × List AbsId)), found.map Prod.fst = state.nodes →
      (∀ b, b ∉ state.nodes → state.succEdges b = []) → f.TokensOf state.joinPointValues →
      a ∈ state.nodes → nodes ⊆ state.nodes → jpv ⊆ state.joinPointValues →
      (∀ q ∈ earlier, q.dst ∈ state.nodes) → (∀ c ∈ path, c ∈ state.nodes) → f.remaining state < fuel →
      ∃ after more,
        rs.foldlM (addEdge f.forward (getOrEnqueue f.forward fuel) a) state = .ok after ∧
        ds.foldl (fun found b => depthFirst (f.searchOrder scope) fuel (a :: path) b found) found
          = more ++ found ∧
        f.Grown scope state after more ∧
        (∀ b ∈ state.nodes, b ≠ a → after.succEdges b = state.succEdges b) ∧
        after.succEdges a = state.succEdges a ++ rs.map (EdgeRequest.edge a) := by
  intro earlier rs
  induction rs generalizing earlier with
  | nil =>
      intro ds split follows state found _ bare tokens _ _ _ _ _ _
      cases follows
      exact ⟨state, [], rfl, rfl, Grown.refl bare tokens, fun _ _ _ => rfl, (List.append_nil _).symm⟩
  | cons r rs ih =>
      intro ds split follows state found inStep bare tokens here grows grows' known onPath enough
      obtain ⟨d, ds, first, others, rfl⟩ := List.forall₂_cons_left_iff.mp follows
      obtain ⟨isBlock, goes⟩ := first
      have ofFirst : ∃ middle more, getOrEnqueue f.forward fuel r.constructs r.dst state = .ok middle ∧
          depthFirst (f.searchOrder scope) fuel (a :: path) d found = more ++ found ∧
          f.Grown scope state middle more ∧ (∀ b ∈ state.nodes, middle.succEdges b = state.succEdges b) ∧
          r.dst ∈ middle.nodes := by
        obtain ⟨abs, got, plain⟩ := isBlock
        have allowed : abs.isFunction = true → r.dst = f.self := fun isFunction => by
          rw [plain] at isFunction
          cases isFunction
        cases goes with
        | inl same =>
            obtain ⟨same, constructs, sound⟩ := same
            rw [constructs, ← same]
            refine spec (a :: path) r.dst state found inStep bare tokens ⟨abs, got, allowed⟩ ?_ enough
            intro unknown
            refine ⟨⟨abs, got, allowed⟩, same ▸ sound, ?_, List.forall_mem_cons.mpr ⟨here, onPath⟩⟩
            exact asked.settled earlier r rs split _ _ known grows grows' unknown
        | inr both =>
            obtain ⟨fuel, rfl⟩ : ∃ less, fuel = less + 1 := ⟨fuel - 1, by omega⟩
            refine ⟨state, [], getOrEnqueue_found got allowed (grows both.1), ?_, Grown.refl bare tokens,
              fun _ _ => rfl, grows both.1⟩
            exact depthFirst_found (inStep ▸ grows both.2)
      obtain ⟨middle, more, enqueued, searched, grown, kept, reached⟩ := ofFirst
      have grown' := grown.record r here
      obtain ⟨after, more', ran, searchedRest, grownRest, keptRest, edges⟩ :=
        ih (earlier ++ [r]) ds (by rw [split, List.append_assoc]; rfl) others (middle.record a r)
          (more ++ found) (by rw [List.map_append, inStep]; exact grown.nodes.symm) grown'.bare grown'.tokens
          (grown.subset here) (List.Subset.trans grows grown.subset)
          (List.Subset.trans grows' grown.joinPointValues)
          (by
            intro q member
            cases List.mem_append.mp member with
            | inl old => exact grown.subset (known q old)
            | inr new => exact List.mem_singleton.mp new ▸ reached)
          (fun c member => grown.subset (onPath c member)) (lt_of_le_of_lt (remaining_le grown.subset) enough)
      have sameOthers : ∀ b, b ≠ a → (middle.record a r).succEdges b = middle.succEdges b := by
        intro b other
        simp [BuildState.record, appendAt, other]
      refine ⟨after, more' ++ more, ?_, ?_, grown'.trans grownRest here keptRest, ?_, ?_⟩
      · rw [List.foldlM_cons, addEdge_eq isBlock enqueued]
        exact ran
      · rw [List.foldl_cons, searched, searchedRest, List.append_assoc]
      · intro b member other
        rw [keptRest b (grown.subset member) other, sameOthers b other, kept b member]
      · rw [edges, List.map_cons, ← List.singleton_append (l := rs.map _), ← List.append_assoc]
        congr 1
        rw [← kept a here]
        simp [BuildState.record, appendAt, EdgeRequest.edge]

theorem terminator_eq {abs : Abstraction} (got : f.get a = some abs) : f.terminator a = abs.body := by
  rw [terminator, got]
  rfl

/-- A block is found once what follows from it is. -/
theorem Grown.close {state start after : BuildState} {more : List (AbsId × List AbsId)}
    (grown : f.Grown scope start after more) (findable : f.Findable scope path a state)
    (unknown : a ∉ state.nodes) (nodes : start.nodes = a :: state.nodes)
    (joinPointValues : state.joinPointValues ⊆ start.joinPointValues)
    (edges : (after.succEdges a).Perm (f.edgesIn (f.entered path a) a)) :
    f.Grown scope state { after with contents := after.contents ++ [a] } (more ++ [(a, path)]) where
  nodes := by
    change after.nodes = _
    rw [grown.nodes, nodes, List.map_append, List.append_assoc]
    rfl
  fresh found member := by
    cases List.mem_append.mp member with
    | inl later =>
        have fresh := grown.fresh found later
        rw [nodes, List.mem_cons, not_or] at fresh
        exact fresh.2
    | inr own => exact List.mem_singleton.mp own ▸ unknown
  added found member := by
    cases List.mem_append.mp member with
    | inl later => exact grown.added found later
    | inr own =>
        rw [List.mem_singleton.mp own]
        exact edges
  sound found member := by
    cases List.mem_append.mp member with
    | inl later => exact grown.sound found later
    | inr own =>
        rw [List.mem_singleton.mp own]
        exact findable.sound
  paths found member c onPath := by
    cases List.mem_append.mp member with
    | inl later => exact grown.paths found later c onPath
    | inr own =>
        rw [List.mem_singleton.mp own] at onPath
        refine grown.subset ?_
        rw [nodes]
        exact List.mem_cons_of_mem _ (findable.path c onPath)
  bare := grown.bare
  joinPointValues := List.Subset.trans joinPointValues grown.joinPointValues
  tokens := grown.tokens

theorem getOrEnqueue_inStep (nested : f.Nested scope) (fuel : Nat) : f.InStep scope fuel := by
  induction fuel with
  | zero => exact fun _ _ _ _ _ _ _ _ _ enough => absurd enough (Nat.not_lt_zero _)
  | succ fuel ih =>
      intro path a state found inStep bare tokens allowed findable enough
      obtain ⟨abs, got, isSelf⟩ := allowed
      by_cases known : a ∈ state.nodes
      · exact ⟨state, [], getOrEnqueue_found got isSelf known, depthFirst_found (inStep ▸ known),
          Grown.refl bare tokens, fun _ _ => rfl, known⟩
      · have findable := findable known
        have notFound : a ∉ found.map Prod.fst := inStep ▸ known
        have got' : f.forward.function.get a = some abs := got
        have self' : f.forward.function.self = f.self := rfl
        have ends := terminator_eq got
        rw [getOrEnqueue, depthFirst, if_neg notFound]
        simp only [got', self']
        rw [if_neg fun wrong => wrong.2 (isSelf wrong.1), if_neg known]
        have bareHere : state.succEdges a = [] := bare a known
        cases body : abs.body with
        | none =>
            rw [body] at ends
            let start : BuildState := { state with nodes := a :: state.nodes }
            have grown : f.Grown scope start start [] :=
              Grown.refl (fun b unknown => bare b fun member => unknown (List.mem_cons_of_mem _ member)) tokens
            have order : f.searchOrder scope a = [] := by rw [searchOrder, ends]
            have edges : (start.succEdges a).Perm (f.edgesIn (f.entered path a) a) := by
              rw [edgesIn, ends]
              exact bareHere ▸ List.Perm.refl _
            refine ⟨_, [(a, path)], rfl, by rw [order]; rfl,
              grown.close findable known rfl (List.Subset.refl _) edges, fun _ _ => rfl, List.mem_cons_self⟩
        | some t =>
            rw [body] at ends
            have settled : ∀ frame ∈ f.entered path a,
                Settled (a :: state.nodes) state.joinPointValues a frame := fun frame member =>
              (findable.settled frame member).mono List.mem_cons_self (List.subset_cons_self _ _)
                (List.Subset.refl _)
            obtain ⟨rs, jpv, requested, asked⟩ := edgeRequests_asked nested findable.sound ends
              List.mem_cons_self settled (fun frame member => entered_blocks nested member) tokens
            let start : BuildState := { state with nodes := a :: state.nodes, joinPointValues := jpv }
            have fewer : f.remaining start < fuel :=
              lt_of_lt_of_le (remaining_lt got known rfl) (Nat.lt_succ_iff.mp enough)
            obtain ⟨after, more, ran, searched, grown, kept, edges⟩ := addEdges_inStep ih asked [] rs _ rfl
              asked.order start ((a, path) :: found) (by rw [List.map_cons, inStep])
              (fun b unknown => bare b fun member => unknown (List.mem_cons_of_mem _ member)) asked.tokens
              List.mem_cons_self (List.Subset.refl _) (List.Subset.refl _)
              (fun b searched => by cases searched)
              (fun c member => List.mem_cons_of_mem _ (findable.path c member)) fewer
            have ownEdges : (after.succEdges a).Perm (f.edgesIn (f.entered path a) a) := by
              rw [edges]
              have nothing : start.succEdges a = [] := bareHere
              rw [nothing, List.nil_append]
              exact asked.edges
            refine ⟨_, more ++ [(a, path)], ?_, ?_,
              grown.close findable known rfl asked.grows ownEdges, ?_, grown.subset List.mem_cons_self⟩
            · have ran' : rs.foldlM (addEdge f.forward (getOrEnqueue f.forward fuel) a)
                  { state with nodes := a :: state.nodes, joinPointValues := jpv } = .ok after := ran
              simp only [processCfNode, requested, bind, Except.bind, ran', pure, Except.pure]
            · rw [searched, List.append_assoc]
              rfl
            · intro b member
              exact kept b (List.mem_cons_of_mem _ member) fun same => known (same ▸ member)

end Function

end Shady
