import Shady.Analysis.Lexical

/-!
# The builder and the search in step

The builder of control flow graphs finds the blocks in the order of a depth-first search,
and takes each for a block inside of the constructs that were entered on the way to it.
Every edge that a merge adds leads to a block that was found before, so that the order of
the search does not depend on where merges are thought to lead.
-/

set_option autoImplicit false

namespace Shady
open Fallible

/-- The construct fields of the build context, for constructs around a block. -/
def constructsOf (frames : List Frame) : Constructs :=
  ⟨(frames.find? Frame.isSelection).map Frame.tail, (frames.find? Frame.isLoop).bind Frame.body?,
    (frames.find? Frame.isLoop).map Frame.tail⟩

def EdgeRequest.edge (a : AbsId) (r : EdgeRequest) : CFEdge :=
  ⟨r.type, some a, some r.dst, r.terminator.asJump, some r.terminator⟩

namespace Function
variable {f : Function} {scope : AbsId → List Frame} {path : List AbsId} {a d : AbsId}

/-! ## The constructs entered on a path -/

theorem entered_cons_of_body {t : Terminator} {frame : Frame} (ends : f.terminator a = some t)
    (isBody : d ∈ t.bodies) (around : f.frame t = some frame) :
    f.entered (a :: path) d = frame :: f.entered path a := by
  simp [entered, enters, ends, isBody, around]

theorem entered_cons_of_not_body {t : Terminator} (ends : f.terminator a = some t)
    (other : d ∉ t.bodies) : f.entered (a :: path) d = f.entered path a := by
  simp [entered, enters, ends, other]

/-- What is known of a block and a path to it: the constructs around the block were entered
    on the path, and each control on it has its tail where the control stands. -/
structure Sound (f : Function) (scope : AbsId → List Frame) (path : List AbsId) (a : AbsId) : Prop where
  entered : ∀ frame ∈ scope a, frame ∈ f.entered path a
  rests : ∀ token tail rest, (Frame.control token tail :: rest) <:+ scope a → scope tail = rest

theorem Sound.beside {t : Terminator} (sound : f.Sound scope path a) (ends : f.terminator a = some t)
    (other : d ∉ t.bodies) (same : scope d = scope a) : f.Sound scope (a :: path) d where
  entered frame member := by
    rw [entered_cons_of_not_body ends other]
    exact sound.entered frame (same ▸ member)
  rests token tail rest isSuffix := sound.rests token tail rest (same ▸ isSuffix)

theorem Sound.inside {t : Terminator} {frame : Frame} (nested : f.Nested scope)
    (sound : f.Sound scope path a) (ends : f.terminator a = some t) (isBody : d ∈ t.bodies)
    (around : f.frame t = some frame) (pushed : scope d = frame :: scope a) :
    f.Sound scope (a :: path) d where
  entered other member := by
    rw [entered_cons_of_body ends isBody around]
    rw [pushed] at member
    cases List.mem_cons.mp member with
    | inl same => exact same ▸ List.mem_cons_self
    | inr outer => exact List.mem_cons_of_mem _ (sound.entered other outer)
  rests token tail rest isSuffix := by
    rw [pushed] at isSuffix
    cases List.suffix_cons_iff.mp isSuffix with
    | inr outer => exact sound.rests token tail rest outer
    | inl same =>
        cases same
        -- only a control puts such a frame around its inside
        cases t with
        | control inside tail' =>
            rw [frame, Option.map_eq_some_iff] at around
            obtain ⟨token', -, equal⟩ := around
            cases equal
            exact (nested.tails a _ ends tail rfl).2
        | _ => cases around

/-- A join leads back to where its control stands. -/
theorem Sound.after_join {token : ValueId} {tail : AbsId} (sound : f.Sound scope path a)
    (ends : f.terminator a = some (.join token)) (isOwn : Frame.control token tail ∈ scope a) :
    f.Sound scope (a :: path) tail := by
  obtain ⟨inner, rest, split⟩ := List.append_of_mem isOwn
  have isSuffix : (Frame.control token tail :: rest) <:+ scope a := ⟨inner, split.symm⟩
  have outer : scope tail <:+ scope a := by
    rw [sound.rests token tail rest isSuffix]
    exact (List.suffix_cons _ _).trans isSuffix
  constructor
  · intro frame member
    rw [entered_cons_of_not_body ends (by simp [Terminator.bodies])]
    exact sound.entered frame (outer.subset member)
  · exact fun token' tail' rest' isSuffix' => sound.rests token' tail' rest' (isSuffix'.trans outer)

/-! ## What the builder keeps -/

/-- What was entered has been found: the tails of selections and loops before their bodies,
    the tokens of controls in the dictionary. -/
def Settled (nodes : List AbsId) (joinPointValues : List (ValueId × AbsId)) (a : AbsId) : Frame → Prop
  | .selection tail => tail ∈ nodes
  | .loop body tail => tail ∈ nodes ∧ (body ∈ nodes ∨ body = a)
  | .control token tail => (token, tail) ∈ joinPointValues

theorem Settled.mono {nodes nodes' : List AbsId} {joinPointValues joinPointValues' : List (ValueId × AbsId)}
    {frame : Frame} (settled : Settled nodes joinPointValues a frame) (here : a ∈ nodes')
    (grows : nodes ⊆ nodes') (grows' : joinPointValues ⊆ joinPointValues') :
    Settled nodes' joinPointValues' d frame := by
  cases frame with
  | selection tail => exact grows settled
  | control token tail => exact grows' settled
  | loop body tail =>
      refine ⟨grows settled.1, .inl ?_⟩
      cases settled.2 with
      | inl found => exact grows found
      | inr same => exact same ▸ here

/-- The tokens of the dictionary are tokens of controls. -/
def TokensOf (f : Function) (joinPointValues : List (ValueId × AbsId)) : Prop :=
  ∀ entry ∈ joinPointValues, ∃ c inside,
    f.terminator c = some (.control inside entry.2) ∧ f.token inside = some entry.1

theorem TokensOf.lookup (nested : f.Nested scope) {joinPointValues : List (ValueId × AbsId)}
    (tokens : f.TokensOf joinPointValues) {token : ValueId} {tail : AbsId}
    (member : (token, tail) ∈ joinPointValues) : joinPointValues.lookup token = some tail := by
  cases found : joinPointValues.lookup token with
  | none =>
      rw [List.lookup_eq_none_iff] at found
      exact absurd (found _ member) (by simp)
  | some tail' =>
      obtain ⟨before, after, split, -⟩ := List.lookup_eq_some_iff.mp found
      have member' : (token, tail') ∈ joinPointValues := by rw [split]; simp
      obtain ⟨c, inside, ends, own⟩ := tokens _ member
      obtain ⟨c', inside', ends', own'⟩ := tokens _ member'
      have same := nested.tokens c c' inside inside' tail tail' token ends ends' own own'
      rw [same, ends'] at ends
      cases ends
      rfl

/-- How a request leads on as the search does: to the same block, known to be inside the
    constructs entered, or to a block found before like the one that the search looks at. -/
def Follows (f : Function) (scope : AbsId → List Frame) (path : List AbsId) (a : AbsId)
    (nodes : List AbsId) (r : EdgeRequest) (d : AbsId) : Prop :=
  f.IsBlock r.dst ∧
    ((r.dst = d ∧ r.constructs = constructsOf (f.entered (a :: path) d) ∧ f.Sound scope (a :: path) d) ∨
      (r.dst ∈ nodes ∧ d ∈ nodes))

/-- What `edgeRequests` gives for a block. -/
structure Asked (f : Function) (scope : AbsId → List Frame) (path : List AbsId) (a : AbsId)
    (nodes : List AbsId) (before after : List (ValueId × AbsId)) (rs : List EdgeRequest) : Prop where
  edges : (rs.map (EdgeRequest.edge a)).Perm (f.edgesIn (f.entered path a) a)
  order : List.Forall₂ (f.Follows scope path a nodes) rs (f.searchOrder scope a)
  settled : ∀ earlier r later, rs = earlier ++ r :: later → ∀ nodes' joinPointValues',
    (∀ q ∈ earlier, q.dst ∈ nodes') → nodes ⊆ nodes' → after ⊆ joinPointValues' → r.dst ∉ nodes' →
    ∀ frame ∈ f.entered (a :: path) r.dst, Settled nodes' joinPointValues' r.dst frame
  grows : before ⊆ after
  tokens : f.TokensOf after

/-- The graph of a whole function, in the default configuration. -/
def forward (f : Function) : CfgBuildContext := ⟨f, f.self, defaultForwardCfgBuild⟩

section Requests
variable {t : Terminator} {nodes : List AbsId} {joinPointValues : List (ValueId × AbsId)}

theorem jumpRequest_eq (constructs : Constructs) {j : Jump} (isBlock : f.IsBlock j.target) :
    jumpRequest f.forward constructs j = .ok [⟨constructs, j.target, .jumpEdge, .jump j⟩] := by
  obtain ⟨abs, got, plain⟩ := isBlock
  have got' : f.forward.function.get j.target = some abs := got
  rw [jumpRequest, got']
  simp [plain]

theorem mapM_eq_map {ε α β : Type} {g : α → Except ε β} {h : α → β} {items : List α}
    (results : ∀ item ∈ items, g item = .ok (h item)) : items.mapM g = .ok (items.map h) := by
  induction items with
  | nil => rfl
  | cons item items ih =>
      obtain ⟨first, rest⟩ := List.forall_mem_cons.mp results
      rw [List.mapM_cons, first, ih rest]
      rfl

theorem flatten_singletons {α β : Type} (g : α → β) (items : List α) :
    (items.map fun item => [g item]).flatten = items.map g := by
  rw [← List.flatMap_def, List.map_eq_flatMap]

theorem edgesIn_eq (frames : List Frame) (ends : f.terminator a = some t) : f.edgesIn frames a =
    t.jumps.map (fun j => ⟨.jumpEdge, some a, some j.target, some j, some (.jump j)⟩)
      ++ t.tail?.toList.map (⟨.structuredTailEdge, some a, some ·, none, some t⟩)
      ++ t.bodies.map (⟨.structuredEnterBodyEdge, some a, some ·, none, some t⟩)
      ++ (t.leaves frames).map fun leave => ⟨leave.1, some a, some leave.2, none, some t⟩ := by
  rw [edgesIn, ends]

/-- Where the block is not a body, nothing new was entered. -/
theorem settled_of_not_body (ends : f.terminator a = some t) (other : d ∉ t.bodies) (here : a ∈ nodes)
    (settled : ∀ frame ∈ f.entered path a, Settled nodes joinPointValues a frame)
    {nodes' : List AbsId} {joinPointValues' : List (ValueId × AbsId)} (grows : nodes ⊆ nodes')
    (grows' : joinPointValues ⊆ joinPointValues') :
    ∀ frame ∈ f.entered (a :: path) d, Settled nodes' joinPointValues' d frame := by
  intro frame member
  rw [entered_cons_of_not_body ends other] at member
  exact (settled frame member).mono (grows here) grows grows'

theorem jumps_asked (nested : f.Nested scope) (sound : f.Sound scope path a)
    (ends : f.terminator a = some t) (here : a ∈ nodes)
    (settled : ∀ frame ∈ f.entered path a, Settled nodes joinPointValues a frame)
    (tokens : f.TokensOf joinPointValues) (noTail : t.tail? = none) (noBodies : t.bodies = [])
    (noLeaves : ∀ frames, t.leaves frames = []) :
    Asked f scope path a nodes joinPointValues joinPointValues
      (t.jumps.map fun j => ⟨constructsOf (f.entered path a), j.target, .jumpEdge, .jump j⟩) := by
  have notBody : ∀ d, d ∉ t.bodies := by simp [noBodies]
  refine ⟨?_, ?_, ?_, List.Subset.refl _, tokens⟩
  · rw [edgesIn_eq _ ends, noTail, noBodies, noLeaves]
    simp [EdgeRequest.edge, Terminator.asJump, Function.comp_def]
  · have order : f.searchOrder scope a = t.jumps.map Jump.target := by
      rw [searchOrder, ends]
      cases t <;> simp_all [Terminator.tail?]
    rw [order, List.forall₂_map_left_iff, List.forall₂_map_right_iff, List.forall₂_same]
    intro j member
    obtain ⟨isBlock, same⟩ := nested.jumps a t ends j member
    refine ⟨isBlock, .inl ⟨rfl, ?_, sound.beside ends (notBody _) same⟩⟩
    rw [entered_cons_of_not_body ends (notBody _)]
  · intro earlier r later _ nodes' joinPointValues' _ grows grows' _
    exact settled_of_not_body ends (notBody _) here settled grows grows'

/-- A selection or a loop: the tail comes first, then the bodies. -/
theorem construct_asked (nested : f.Nested scope) (sound : f.Sound scope path a)
    (ends : f.terminator a = some t) (here : a ∈ nodes)
    (settled : ∀ frame ∈ f.entered path a, Settled nodes joinPointValues a frame)
    (tokens : f.TokensOf joinPointValues) {frame : Frame} {tail : AbsId} {inner : Constructs}
    (around : f.frame t = some frame) (isTail : t.tail? = some tail) (noJumps : t.jumps = [])
    (leaves : ∀ frames frames', t.leaves frames = t.leaves frames')
    (toTail : ∀ leave ∈ t.leaves [], leave.2 = tail)
    (overrides : inner = constructsOf (frame :: f.entered path a))
    (settles : ∀ nodes joinPointValues, ∀ d ∈ t.bodies, tail ∈ nodes → Settled nodes joinPointValues d frame)
    (order : f.searchOrder scope a = t.jumps.map Jump.target ++ t.tail?.toList ++ t.bodies
      ++ (t.leaves (scope a)).map Prod.snd) :
    Asked f scope path a nodes joinPointValues joinPointValues
      (⟨constructsOf (f.entered path a), tail, .structuredTailEdge, t⟩ ::
        t.bodies.map (⟨inner, ·, .structuredEnterBodyEdge, t⟩) ++
        (t.leaves []).map fun leave => ⟨constructsOf (f.entered path a), leave.2, leave.1, t⟩) := by
  have notJump : t.asJump = none := by
    cases t with
    | jump j => cases isTail
    | _ => rfl
  have tailApart : tail ∉ t.bodies := by
    have nodup := nested.once a t ends
    rw [Terminator.structuralTargets, isTail] at nodup
    exact fun member => (List.nodup_append.mp nodup).2.2 tail member tail (by simp) rfl
  obtain ⟨isBlock, besides⟩ := nested.tails a t ends tail (by simp [isTail])
  have asTail : ∀ r : EdgeRequest, r.dst = tail → r.constructs = constructsOf (f.entered path a) →
      f.Follows scope path a nodes r tail := by
    intro r toTail outer
    refine ⟨toTail ▸ isBlock, .inl ⟨toTail, ?_, sound.beside ends tailApart besides⟩⟩
    rw [entered_cons_of_not_body ends tailApart, outer]
  refine ⟨?_, ?_, ?_, List.Subset.refl _, tokens⟩
  · rw [edgesIn_eq _ ends, noJumps, isTail, leaves (f.entered path a) []]
    simp [EdgeRequest.edge, notJump, Function.comp_def]
  · rw [order, noJumps, isTail, leaves (scope a) []]
    change List.Forall₂ _ _ (tail :: (t.bodies ++ (t.leaves []).map Prod.snd))
    refine List.Forall₂.cons (asTail _ rfl rfl) (List.rel_append ?_ ?_)
    · rw [List.forall₂_map_left_iff, List.forall₂_same]
      intro d member
      obtain ⟨isBlock', frame', around', pushed⟩ := nested.bodies a t ends d member
      rw [around] at around'
      cases around'
      refine ⟨isBlock', .inl ⟨rfl, ?_, sound.inside nested ends member around pushed⟩⟩
      rw [entered_cons_of_body ends member around, overrides]
    · rw [List.forall₂_map_left_iff, List.forall₂_map_right_iff, List.forall₂_same]
      intro leave member
      rw [toTail leave member]
      exact asTail _ rfl rfl
  · intro earlier r later split nodes' joinPointValues' known grows grows' unknown
    by_cases isBody : r.dst ∈ t.bodies
    · -- the tail is asked for before any body
      have tailKnown : tail ∈ nodes' := by
        cases earlier with
        | nil =>
            cases split
            exact absurd isBody tailApart
        | cons q rest =>
            have first := (List.cons.inj split).1
            have reached := known q List.mem_cons_self
            rw [← first] at reached
            exact reached
      intro frame' member
      rw [entered_cons_of_body ends isBody around] at member
      cases List.mem_cons.mp member with
      | inl own => exact own ▸ settles nodes' joinPointValues' _ isBody tailKnown
      | inr outer => exact (settled frame' outer).mono (grows here) grows grows'
    · exact settled_of_not_body ends isBody here settled grows grows'

/-- A control: its token is known before its inside is looked at. -/
theorem control_asked (nested : f.Nested scope) (sound : f.Sound scope path a) {inside tail : AbsId}
    {token : ValueId} (ends : f.terminator a = some (.control inside tail))
    (own : f.token inside = some token) (here : a ∈ nodes)
    (settled : ∀ frame ∈ f.entered path a, Settled nodes joinPointValues a frame)
    (tokens : f.TokensOf joinPointValues) :
    Asked f scope path a nodes joinPointValues ((token, tail) :: joinPointValues)
      [⟨constructsOf (f.entered path a), inside, .structuredEnterBodyEdge, .control inside tail⟩,
        ⟨constructsOf (f.entered path a), tail, .structuredTailEdge, .control inside tail⟩] := by
  have isBody : inside ∈ (Terminator.control inside tail).bodies := List.mem_singleton.mpr rfl
  have around : f.frame (.control inside tail) = some (.control token tail) := by
    rw [frame, own, Option.map_some]
  have tailApart : tail ∉ (Terminator.control inside tail).bodies := by
    have nodup := nested.once a _ ends
    intro member
    rw [List.mem_singleton.mp member] at nodup
    simp [Terminator.structuralTargets, Terminator.bodies, Terminator.tail?] at nodup
  obtain ⟨insideBlock, frame', around', pushed⟩ := nested.bodies a _ ends inside isBody
  obtain ⟨tailBlock, besides⟩ := nested.tails a _ ends tail rfl
  rw [around] at around'
  cases around'
  refine ⟨?_, ?_, ?_, List.subset_cons_self _ _, ?_⟩
  · rw [edgesIn_eq _ ends]
    exact List.Perm.swap _ _ _
  · have order : f.searchOrder scope a = [inside, tail] := by rw [searchOrder, ends]
    rw [order]
    refine List.Forall₂.cons ⟨insideBlock, .inl ⟨rfl, ?_, ?_⟩⟩
      (List.Forall₂.cons ⟨tailBlock, .inl ⟨rfl, ?_, ?_⟩⟩ List.Forall₂.nil)
    · rw [entered_cons_of_body ends isBody around]
      rfl
    · exact sound.inside nested ends isBody around pushed
    · rw [entered_cons_of_not_body ends tailApart]
    · exact sound.beside ends tailApart besides
  · intro earlier r later split nodes' joinPointValues' _ grows grows' _
    have kept := List.Subset.trans (List.subset_cons_self _ _) grows'
    by_cases entering : r.dst ∈ (Terminator.control inside tail).bodies
    · intro frame member
      rw [entered_cons_of_body ends entering around] at member
      cases List.mem_cons.mp member with
      | inl same => exact same ▸ grows' List.mem_cons_self
      | inr outer => exact (settled frame outer).mono (grows here) grows kept
    · exact settled_of_not_body ends entering here settled grows kept
  · intro entry member
    cases List.mem_cons.mp member with
    | inl same => exact ⟨a, inside, same ▸ ends, same ▸ own⟩
    | inr before => exact tokens entry before

/-- The constructs of a kind that were entered are there if some of them are around. -/
theorem exists_entered (sound : f.Sound scope path a) (kind : Frame → Bool) {frame : Frame}
    (member : frame ∈ scope a) (isKind : kind frame = true) :
    ∃ entered lexical, (f.entered path a).find? kind = some entered ∧ (scope a).find? kind = some lexical ∧
      entered ∈ f.entered path a ∧ lexical ∈ f.entered path a ∧ kind entered = true ∧ kind lexical = true := by
  obtain ⟨entered, foundEntered⟩ := Option.isSome_iff_exists.mp
    (List.find?_isSome.mpr ⟨frame, sound.entered frame member, isKind⟩)
  obtain ⟨lexical, foundLexical⟩ := Option.isSome_iff_exists.mp
    (List.find?_isSome.mpr ⟨frame, member, isKind⟩)
  exact ⟨entered, lexical, foundEntered, foundLexical, List.mem_of_find?_eq_some foundEntered,
    sound.entered lexical (List.mem_of_find?_eq_some foundLexical), List.find?_some foundEntered,
    List.find?_some foundLexical⟩

/-- A request for a block found before, where the search looks at one found before. -/
theorem known_asked {type : CFEdgeType} {target target' : AbsId} (ends : f.terminator a = some t)
    (isBlock : f.IsBlock target) (known : target ∈ nodes) (known' : target' ∈ nodes)
    (noTargets : t.jumps = [] ∧ t.bodies = [] ∧ t.tail? = none)
    (tokens : f.TokensOf joinPointValues)
    (leaves : t.leaves (f.entered path a) = [(type, target)])
    (leaves' : (t.leaves (scope a)).map Prod.snd = [target']) :
    Asked f scope path a nodes joinPointValues joinPointValues
      [⟨constructsOf (f.entered path a), target, type, t⟩] := by
  obtain ⟨noJumps, noBodies, noTail⟩ := noTargets
  have notJump : t.asJump = none := by
    cases t with
    | jump j => cases noJumps
    | _ => rfl
  refine ⟨?_, ?_, ?_, List.Subset.refl _, tokens⟩
  · rw [edgesIn_eq _ ends, noJumps, noBodies, noTail, leaves]
    simp [EdgeRequest.edge, notJump]
  · have order : f.searchOrder scope a = [target'] := by
      rw [searchOrder, ends]
      cases t <;> simp_all [Terminator.tail?]
    rw [order]
    exact List.Forall₂.cons ⟨isBlock, .inr ⟨known, known'⟩⟩ List.Forall₂.nil
  · intro earlier r later split nodes' joinPointValues' _ grows _ unknown
    cases earlier with
    | nil =>
        cases split
        exact absurd (grows known) unknown
    | cons q rest =>
        have lengths := congrArg List.length split
        simp at lengths

/-- A control that was entered has its token in the dictionary. -/
theorem control_of_binds (nested : f.Nested scope)
    (settled : ∀ frame ∈ f.entered path a, Settled nodes joinPointValues a frame)
    (tokens : f.TokensOf joinPointValues) {token : ValueId} {tail : AbsId}
    (known : joinPointValues.lookup token = some tail) {frame : Frame} (member : frame ∈ f.entered path a)
    (binds : Frame.binds token frame = true) : frame = .control token tail := by
  cases frame with
  | selection _ => cases binds
  | loop _ _ => cases binds
  | control token' tail' =>
      rw [Frame.binds, decide_eq_true_iff] at binds
      rw [binds] at member ⊢
      have same := TokensOf.lookup nested tokens (settled _ member)
      rw [known] at same
      cases same
      rfl

theorem join_asked (nested : f.Nested scope) (sound : f.Sound scope path a) {token : ValueId} {tail : AbsId}
    (ends : f.terminator a = some (.join token)) (own : .control token tail ∈ scope a) (here : a ∈ nodes)
    (settled : ∀ frame ∈ f.entered path a, Settled nodes joinPointValues a frame)
    (isBlock : f.IsBlock tail) (tokens : f.TokensOf joinPointValues)
    (known : joinPointValues.lookup token = some tail) :
    Asked f scope path a nodes joinPointValues joinPointValues
      [⟨constructsOf (f.entered path a), tail, .structuredLeaveBodyEdge, .join token⟩] := by
  have binds : Frame.binds token (.control token tail) = true := decide_eq_true rfl
  obtain ⟨entered, lexical, found, found', member, member', isOwn, isOwn'⟩ := exists_entered sound _ own binds
  rw [control_of_binds nested settled tokens known member isOwn] at found
  rw [control_of_binds nested settled tokens known member' isOwn'] at found'
  have notBody : ∀ d, d ∉ (Terminator.join token).bodies := fun _ => List.not_mem_nil
  refine ⟨?_, ?_, ?_, List.Subset.refl _, tokens⟩
  · rw [edgesIn_eq _ ends, Terminator.leaves, found]
    exact List.Perm.refl _
  · have order : f.searchOrder scope a = [tail] := by
      rw [searchOrder, ends]
      simp only [Terminator.leaves, found']
      rfl
    rw [order]
    refine List.Forall₂.cons ⟨isBlock, .inl ⟨rfl, ?_, sound.after_join ends own⟩⟩ List.Forall₂.nil
    rw [entered_cons_of_not_body ends (notBody _)]
  · intro earlier r later _ nodes' joinPointValues' _ grows grows' _
    exact settled_of_not_body ends (notBody _) here settled grows grows'

/-- A join on a token that no control binds leads nowhere. -/
theorem foreign_join_asked (sound : f.Sound scope path a) {token : ValueId}
    (ends : f.terminator a = some (.join token))
    (foreign : ∀ c inside tail, f.terminator c = some (.control inside tail) → f.token inside ≠ some token)
    (settled : ∀ frame ∈ f.entered path a, Settled nodes joinPointValues a frame)
    (tokens : f.TokensOf joinPointValues) :
    Asked f scope path a nodes joinPointValues joinPointValues [] := by
  have unbound : ∀ frame ∈ f.entered path a, ¬ Frame.binds token frame = true := by
    intro frame member binds
    cases frame with
    | selection _ => cases binds
    | loop _ _ => cases binds
    | control token' tail' =>
        rw [Frame.binds, decide_eq_true_iff] at binds
        obtain ⟨c, inside, ends', own⟩ := tokens _ (settled _ member)
        exact foreign c inside _ ends' (binds ▸ own)
  have nothing : (f.entered path a).find? (Frame.binds token) = none := List.find?_eq_none.mpr unbound
  have nothing' : (scope a).find? (Frame.binds token) = none :=
    List.find?_eq_none.mpr fun frame member => unbound frame (sound.entered frame member)
  refine ⟨?_, ?_, ?_, List.Subset.refl _, tokens⟩
  · rw [edgesIn_eq _ ends, Terminator.leaves, nothing]
    exact List.Perm.refl _
  · have order : f.searchOrder scope a = [] := by
      rw [searchOrder, ends]
      simp only [Terminator.leaves, nothing']
      rfl
    rw [order]
    exact List.Forall₂.nil
  · intro earlier r later split
    cases List.append_eq_nil_iff.mp split.symm with
    | intro _ impossible => cases impossible

/-- The requests for a block lead on as the search does, and give the edges that belong to
    the constructs entered. -/
theorem edgeRequests_asked (nested : f.Nested scope) (sound : f.Sound scope path a)
    (ends : f.terminator a = some t) (here : a ∈ nodes)
    (settled : ∀ frame ∈ f.entered path a, Settled nodes joinPointValues a frame)
    (blocks : ∀ frame ∈ f.entered path a, f.IsBlock frame.tail ∧ ∀ body ∈ frame.body?, f.IsBlock body)
    (tokens : f.TokensOf joinPointValues) :
    ∃ rs after, edgeRequests f.forward (constructsOf (f.entered path a)) joinPointValues t
        = .ok (rs, after) ∧ Asked f scope path a nodes joinPointValues after rs := by
  have jumpBlocks := fun j member => (nested.jumps a t ends j member).1
  have leavesTo : ∀ {kind : Frame → Bool}, t.merges = some kind → ∃ entered lexical,
      (f.entered path a).find? kind = some entered ∧ (scope a).find? kind = some lexical ∧
      entered ∈ f.entered path a ∧ lexical ∈ f.entered path a ∧ kind entered = true ∧ kind lexical = true := by
    intro kind isMerge
    obtain ⟨frame, member, isKind⟩ := nested.merges a t kind ends isMerge
    exact exists_entered sound _ member isKind
  have loopsTo : t.merges = some Frame.isLoop → ∃ body tail body' tail',
      (f.entered path a).find? Frame.isLoop = some (.loop body tail) ∧
      (scope a).find? Frame.isLoop = some (.loop body' tail') ∧
      .loop body tail ∈ f.entered path a ∧ .loop body' tail' ∈ f.entered path a := by
    intro isMerge
    obtain ⟨entered, lexical, found, found', member, member', isKind, isKind'⟩ := leavesTo isMerge
    cases entered with
    | selection _ => cases isKind
    | control _ _ => cases isKind
    | loop body tail =>
        cases lexical with
        | selection _ => cases isKind'
        | control _ _ => cases isKind'
        | loop body' tail' => exact ⟨body, tail, body', tail', found, found', member, member'⟩
  cases t with
  | jump j =>
      refine ⟨_, _, ?_, jumps_asked nested sound ends here settled tokens rfl rfl fun _ => rfl⟩
      rw [edgeRequests, jumpRequest_eq _ (jumpBlocks j (by simp [Terminator.jumps]))]
      rfl
  | branch trueJump falseJump =>
      refine ⟨_, _, ?_, jumps_asked nested sound ends here settled tokens rfl rfl fun _ => rfl⟩
      rw [edgeRequests, jumpRequest_eq _ (jumpBlocks trueJump (by simp [Terminator.jumps])),
        jumpRequest_eq _ (jumpBlocks falseJump (by simp [Terminator.jumps]))]
      rfl
  | brSwitch caseJumps defaultJump =>
      refine ⟨_, _, ?_, jumps_asked nested sound ends here settled tokens rfl rfl fun _ => rfl⟩
      have onCases : caseJumps.mapM (jumpRequest f.forward (constructsOf (f.entered path a)))
          = .ok (caseJumps.map fun j => [⟨constructsOf (f.entered path a), j.target, .jumpEdge, .jump j⟩]) :=
        mapM_eq_map fun j member => jumpRequest_eq _ (jumpBlocks j (by simp [Terminator.jumps, member]))
      rw [edgeRequests, onCases, jumpRequest_eq _ (jumpBlocks defaultJump (by simp [Terminator.jumps]))]
      simp [Terminator.jumps, flatten_singletons, bind, Except.bind, pure, Except.pure]
  | ifInstr ifTrue ifFalse tail =>
      refine ⟨_, _, ?_, construct_asked nested sound ends here settled tokens rfl rfl rfl ?_ ?_ rfl
        (fun _ _ _ _ known => known) (by rw [searchOrder, ends])⟩
      · cases ifFalse <;> rfl
      · cases ifFalse <;> exact fun _ _ => rfl
      · cases ifFalse <;> simp [Terminator.leaves]
  | matchInstr cases defaultCase tail =>
      refine ⟨_, _, ?_, construct_asked nested sound ends here settled tokens rfl rfl rfl (fun _ _ => rfl)
        (fun b isBody => by cases isBody) rfl (fun _ _ _ _ known => known)
        (by rw [searchOrder, ends])⟩
      simp [edgeRequests, tailRequest, forward, defaultForwardCfgBuild, Terminator.bodies, Terminator.leaves,
        constructsOf, Frame.isSelection, Frame.isLoop, Frame.tail]
  | loopInstr body tail =>
      refine ⟨_, _, ?_, construct_asked nested sound ends here settled tokens rfl rfl rfl (fun _ _ => rfl)
        (fun b isBody => by cases isBody) rfl ?_ (by rw [searchOrder, ends])⟩
      · rfl
      · exact fun _ _ d isBody known => ⟨known, .inr (List.mem_singleton.mp isBody).symm⟩
  | control inside tail =>
      obtain ⟨⟨insideAbs, got, -⟩, frame, around, -⟩ :=
        nested.bodies a _ ends inside (List.mem_singleton.mpr rfl)
      rw [Function.frame, Option.map_eq_some_iff] at around
      obtain ⟨token, own, -⟩ := around
      refine ⟨_, _, ?_, control_asked nested sound ends own here settled tokens⟩
      have got' : f.forward.function.get inside = some insideAbs := got
      rw [Function.token, got, Option.bind_some] at own
      obtain ⟨rest, params⟩ := List.head?_eq_some_iff.mp own
      rw [edgeRequests, got']
      simp only [params]
      rfl
  | join token =>
      cases nested.joins a token ends with
      | inl isOwn =>
          obtain ⟨tail, member⟩ := isOwn
          have entered := sound.entered _ member
          have known := TokensOf.lookup nested tokens (settled _ entered)
          refine ⟨_, _, ?_, join_asked nested sound ends member here settled (blocks _ entered).1 tokens known⟩
          have exits : f.forward.config.includeStructuredExits = true := rfl
          rw [edgeRequests, if_pos exits, known]
      | inr foreign =>
          refine ⟨_, _, ?_, foreign_join_asked sound ends foreign settled tokens⟩
          have unknown : joinPointValues.lookup token = none := by
            rw [List.lookup_eq_none_iff]
            intro entry member
            obtain ⟨c, inside, ends', own⟩ := tokens entry member
            rw [bne_iff_ne]
            exact fun same => foreign c inside _ ends' (same ▸ own)
          have exits : f.forward.config.includeStructuredExits = true := rfl
          rw [edgeRequests, if_pos exits, unknown]
  | mergeSelection =>
      obtain ⟨entered, lexical, found, found', member, member', isKind, isKind'⟩ := leavesTo rfl
      cases entered with
      | selection tail =>
          cases lexical with
          | selection tail' =>
              refine ⟨_, _, ?_, known_asked ends (blocks _ member).1 (settled _ member) (settled _ member')
                ⟨rfl, rfl, rfl⟩ tokens (by rw [Terminator.leaves, found]; rfl)
                (by rw [Terminator.leaves, found']; rfl)⟩
              have target : (constructsOf (f.entered path a)).selectionTail = some tail := by
                rw [constructsOf, found]
                rfl
              rw [edgeRequests, target]
              rfl
          | loop _ _ => cases isKind'
          | control _ _ => cases isKind'
      | loop _ _ => cases isKind
      | control _ _ => cases isKind
  | mergeContinue =>
      obtain ⟨body, tail, body', tail', found, found', member, member'⟩ := loopsTo rfl
      have known : ∀ {body tail}, .loop body tail ∈ f.entered path a → body ∈ nodes :=
        fun member => (settled _ member).2.elim id fun same => same ▸ here
      refine ⟨_, _, ?_, known_asked ends ((blocks _ member).2 body rfl) (known member) (known member')
        ⟨rfl, rfl, rfl⟩ tokens (by rw [Terminator.leaves, found]; rfl) (by rw [Terminator.leaves, found']; rfl)⟩
      have target : (constructsOf (f.entered path a)).loopHead = some body := by
        rw [constructsOf, found]
        rfl
      rw [edgeRequests, target]
      rfl
  | mergeBreak =>
      obtain ⟨body, tail, body', tail', found, found', member, member'⟩ := loopsTo rfl
      refine ⟨_, _, ?_, known_asked ends (blocks _ member).1 (settled _ member).1 (settled _ member').1
        ⟨rfl, rfl, rfl⟩ tokens (by rw [Terminator.leaves, found]; rfl) (by rw [Terminator.leaves, found']; rfl)⟩
      have target : (constructsOf (f.entered path a)).loopTail = some tail := by
        rw [constructsOf, found]
        rfl
      rw [edgeRequests, target]
      rfl
  | tailCall =>
      exact ⟨_, _, rfl, jumps_asked nested sound ends here settled tokens rfl rfl fun _ => rfl⟩
  | fnRet =>
      exact ⟨_, _, rfl, jumps_asked nested sound ends here settled tokens rfl rfl fun _ => rfl⟩
  | unreachable =>
      exact ⟨_, _, rfl, jumps_asked nested sound ends here settled tokens rfl rfl fun _ => rfl⟩

end Requests

end Function

end Shady
