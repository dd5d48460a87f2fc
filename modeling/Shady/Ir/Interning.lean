import Shady.Ir.Arena

/-!
# Interning is canonical, and ids miss their nodes

Whatever is created, the sets hold every allocation once and no two structural nodes or
arrays are alike. An id is the size of the table after its node was appended, though, so
that looking it up gives the node allocated next.
-/

set_option autoImplicit false

namespace Shady

open UniqueTable (Table)

section Interning
variable {Tag : Type}

/-! ## What an arena describes -/

/-- A list of nodes by its contents. -/
def Arena.viewOperand (arena : Arena Tag) : Operand Nat → Operand (List (Option Nat))
  | .mem operand => .mem operand
  | .node operand => .node operand
  | .nodes array => .nodes (arena.arrays.contents[array]?.getD [])
  | .string text => .string text
  | .word bits => .word bits

/-- The tag and the operands of a node. -/
def Arena.describes (arena : Arena Tag) (node : Nat) : Option (NodeRequest Tag) :=
  arena.nodes.contents[node]?.map fun n => ⟨n.data.tag, n.data.payload.map arena.viewOperand⟩

/-- Allocations stay where they are. -/
structure Arena.Extends (arena arena' : Arena Tag) : Prop where
  nodes : arena.nodes.contents <+: arena'.nodes.contents
  arrays : arena.arrays.contents <+: arena'.arrays.contents

/-- The arrays of a payload have been allocated. -/
def Arena.Holds (arena : Arena Tag) (payload : List (Operand Nat)) : Prop :=
  ∀ array, Operand.nodes array ∈ payload → array < arena.arrays.contents.length

theorem Arena.Extends.refl (arena : Arena Tag) : arena.Extends arena :=
  ⟨List.prefix_refl _, List.prefix_refl _⟩

theorem Arena.Extends.trans {a b c : Arena Tag} (first : a.Extends b) (second : b.Extends c) :
    a.Extends c := ⟨first.nodes.trans second.nodes, first.arrays.trans second.arrays⟩

theorem Arena.Extends.nodeAt {arena arena' : Arena Tag} (later : arena.Extends arena') {i : Nat}
    (inside : i < arena.nodes.contents.length) :
    arena'.nodes.contents[i]? = arena.nodes.contents[i]? := by
  obtain ⟨more, equal⟩ := later.nodes
  rw [← equal, List.getElem?_append_left inside]

theorem Arena.Extends.arrayAt {arena arena' : Arena Tag} (later : arena.Extends arena') {i : Nat}
    (inside : i < arena.arrays.contents.length) :
    arena'.arrays.contents[i]? = arena.arrays.contents[i]? := by
  obtain ⟨more, equal⟩ := later.arrays
  rw [← equal, List.getElem?_append_left inside]

theorem Arena.Holds.later {arena arena' : Arena Tag} {payload : List (Operand Nat)}
    (holds : arena.Holds payload) (later : arena.Extends arena') : arena'.Holds payload :=
  fun array inside => Nat.lt_of_lt_of_le (holds array inside) later.arrays.length_le

theorem Arena.Extends.view {arena arena' : Arena Tag} (later : arena.Extends arena')
    {payload : List (Operand Nat)} (holds : arena.Holds payload) :
    payload.map arena'.viewOperand = payload.map arena.viewOperand := by
  apply List.map_congr_left
  intro operand inside
  cases operand with
  | nodes array => simp only [Arena.viewOperand, later.arrayAt (holds array inside)]
  | mem operand => rfl
  | node operand => rfl
  | string text => rfl
  | word bits => rfl

variable {grammar : Grammar Tag}

structure Arena.Sound (grammar : Grammar Tag) (arena : Arena Tag) : Prop where
  nodes : arena.nodes.Exact (nodeKey grammar)
  arrays : arena.arrays.Exact some
  handles : ∀ node ∈ arena.nodes.contents, arena.Holds node.data.payload
  ids : arena.ids = (List.range arena.nodes.contents.length).map some
  numbered : ∀ i node, arena.nodes.contents[i]? = some node → node.id = i + 1

theorem Arena.Sound.array_injective {arena : Arena Tag} (sound : arena.Sound grammar) {i j : Nat}
    (inside : i < arena.arrays.contents.length)
    (equal : arena.arrays.contents[i]? = arena.arrays.contents[j]?) : i = j := by
  have found : arena.arrays.contents[i]? = some arena.arrays.contents[i] :=
    List.getElem?_eq_getElem inside
  apply sound.arrays.distinct i j arena.arrays.contents[i]
  · rw [Table.keyAt, found]
    rfl
  · rw [Table.keyAt, ← equal, found]
    rfl

/-- Allocated arrays differ in their contents. -/
theorem Arena.Sound.viewOperand_injective {arena : Arena Tag} (sound : arena.Sound grammar)
    {operand operand' : Operand Nat} (holds : arena.Holds [operand]) (holds' : arena.Holds [operand'])
    (equal : arena.viewOperand operand = arena.viewOperand operand') : operand = operand' := by
  cases operand with
  | nodes array =>
      cases operand' with
      | nodes array' =>
          have inside := holds array (List.mem_singleton_self _)
          have inside' := holds' array' (List.mem_singleton_self _)
          simp only [Arena.viewOperand, List.getElem?_eq_getElem inside,
            List.getElem?_eq_getElem inside', Option.getD_some, Operand.nodes.injEq] at equal
          congr 1
          apply sound.array_injective inside
          rw [List.getElem?_eq_getElem inside, List.getElem?_eq_getElem inside', equal]
      | mem operand' => cases equal
      | node operand' => cases equal
      | string text => cases equal
      | word bits => cases equal
  | mem operand => cases operand' <;> cases equal; rfl
  | node operand => cases operand' <;> cases equal; rfl
  | string text => cases operand' <;> cases equal; rfl
  | word bits => cases operand' <;> cases equal; rfl

theorem Arena.Sound.view_injective {arena : Arena Tag} (sound : arena.Sound grammar)
    {payload payload' : List (Operand Nat)} (holds : arena.Holds payload)
    (holds' : arena.Holds payload')
    (equal : payload.map arena.viewOperand = payload'.map arena.viewOperand) :
    payload = payload' := by
  induction payload generalizing payload' with
  | nil =>
      cases payload' with
      | nil => rfl
      | cons operand rest => cases equal
  | cons operand rest ih =>
      cases payload' with
      | nil => cases equal
      | cons operand' rest' =>
          simp only [List.map_cons, List.cons.injEq] at equal
          have heads : operand = operand' :=
            sound.viewOperand_injective (fun array inside => holds array (by simp_all))
              (fun array inside => holds' array (by simp_all)) equal.1
          have tails : rest = rest' :=
            ih (fun array inside => holds array (List.mem_cons_of_mem _ inside))
              (fun array inside => holds' array (List.mem_cons_of_mem _ inside)) equal.2
          rw [heads, tails]

/-- Structural nodes differ in their tags or operands. -/
theorem Arena.Sound.describes_injective {arena : Arena Tag} (sound : arena.Sound grammar)
    {i j : Nat} {node : ArenaNode Tag} (found : arena.nodes.contents[i]? = some node)
    (structural : grammar.nominal node.data.tag = false)
    (equal : arena.describes i = arena.describes j) : i = j := by
  rw [Arena.describes, Arena.describes, found] at equal
  cases found' : arena.nodes.contents[j]? with
  | none => simp [found'] at equal
  | some node' =>
      simp only [found', Option.map_some, Option.some.injEq, NodeData.mk.injEq] at equal
      have payloads : node.data.payload = node'.data.payload :=
        sound.view_injective (sound.handles node (List.mem_of_getElem? found))
          (sound.handles node' (List.mem_of_getElem? found')) equal.2
      have data : node.data = node'.data :=
        calc node.data = ⟨node.data.tag, node.data.payload⟩ := rfl
          _ = ⟨node'.data.tag, node'.data.payload⟩ := by rw [equal.1, payloads]
          _ = node'.data := rfl
      apply sound.nodes.distinct i j node.data
      · simp [Table.keyAt, found, nodeKey, structural]
      · simp [Table.keyAt, found', nodeKey, ← data, structural]

/-! ## Arrays -/

theorem Arena.Sound.new : (Arena.new : Arena Tag).Sound grammar where
  nodes := Table.exact_empty
  arrays := Table.exact_empty
  handles node inside := by simp [Arena.new, Table.empty] at inside
  ids := rfl
  numbered i node found := by simp [Arena.new, Table.empty] at found

/-- What an allocation of arrays does. -/
structure Arena.AddsArrays (grammar : Grammar Tag) (arena arena' : Arena Tag) : Prop where
  sound : arena'.Sound grammar
  extends_ : arena.Extends arena'
  nodes : arena'.nodes = arena.nodes
  ids : arena'.ids = arena.ids

theorem Arena.AddsArrays.refl {arena : Arena Tag} (sound : arena.Sound grammar) :
    arena.AddsArrays grammar arena := ⟨sound, .refl arena, rfl, rfl⟩

theorem Arena.AddsArrays.trans {a b c : Arena Tag} (first : a.AddsArrays grammar b)
    (second : b.AddsArrays grammar c) : a.AddsArrays grammar c where
  sound := second.sound
  extends_ := first.extends_.trans second.extends_
  nodes := second.nodes.trans first.nodes
  ids := second.ids.trans first.ids

theorem shdNodes_spec {arena arena' : Arena Tag} (sound : arena.Sound grammar)
    {operands : List (Option Nat)} {array : Nat}
    (equal : arena.shdNodes operands = (arena', array)) :
    arena.AddsArrays grammar arena' ∧ arena'.arrays.contents[array]? = some operands := by
  rw [Arena.shdNodes] at equal
  cases search : arena.arrays.find some operands with
  | some found =>
      simp only [search, Prod.mk.injEq] at equal
      rw [← equal.1, ← equal.2]
      refine ⟨.refl sound, ?_⟩
      simpa [Table.keyAt] using sound.arrays.find_eq_some.mp search
  | none =>
      simp only [search, Prod.mk.injEq] at equal
      have exact : (arena.arrays.add operands).Exact some := by
        apply sound.arrays.add
        intro key same
        cases same
        exact search
      rw [← equal.1, ← equal.2]
      refine ⟨⟨⟨sound.nodes, exact, ?_, sound.ids, sound.numbered⟩,
        ⟨List.prefix_refl _, List.prefix_append _ _⟩, rfl, rfl⟩, by simp [Table.add]⟩
      intro node inside array' held
      have lower := sound.handles node inside array' held
      simp only [Table.add, List.length_append, List.length_singleton]
      omega

/-- What the operands of a node become. -/
theorem internOperands_spec {operands : List (Operand (List (Option Nat)))}
    {arena arena' : Arena Tag} {payload : List (Operand Nat)} (sound : arena.Sound grammar)
    (equal : internOperands operands arena = (arena', payload)) :
    arena.AddsArrays grammar arena' ∧ arena'.Holds payload ∧
      payload.map arena'.viewOperand = operands := by
  induction operands generalizing arena arena' payload with
  | nil =>
      simp only [internOperands, Prod.mk.injEq] at equal
      rw [← equal.1, ← equal.2]
      exact ⟨.refl sound, fun array inside => by simp at inside, rfl⟩
  | cons operand rest ih =>
      cases operand with
      | nodes list =>
          cases first : arena.shdNodes list with
          | mk middle array =>
          cases second : internOperands rest middle with
          | mk last payload' =>
          have added := shdNodes_spec sound first
          have more := ih added.1.sound second
          simp only [internOperands, first, second, Prod.mk.injEq] at equal
          have inside : array < middle.arrays.contents.length :=
            (List.getElem?_eq_some_iff.mp added.2).1
          have kept : last.arrays.contents[array]? = some list :=
            (more.1.extends_.arrayAt inside).trans added.2
          rw [← equal.1, ← equal.2]
          refine ⟨added.1.trans more.1, ?_, ?_⟩
          · intro array' held
            cases List.mem_cons.mp held with
            | inl same =>
                cases same
                exact (List.getElem?_eq_some_iff.mp kept).1
            | inr later => exact more.2.1 array' later
          · simp [Arena.viewOperand, kept, more.2.2]
      | mem _ | node _ | string _ | word _ =>
          cases second : internOperands rest arena with
          | mk last payload' =>
          have more := ih sound second
          simp only [internOperands, second, Prod.mk.injEq] at equal
          rw [← equal.1, ← equal.2]
          refine ⟨more.1, ?_, by simp [Arena.viewOperand, more.2.2]⟩
          intro array' held
          exact more.2.1 array' (by simpa using held)

/-! ## Nodes -/

variable [DecidableEq Tag] {config : ArenaConfig} {rules : Rules Tag}

/-- The arena stays sound, and what was allocated stays where it is. -/
def Arena.GrowsTo (grammar : Grammar Tag) (arena arena' : Arena Tag) : Prop :=
  arena'.Sound grammar ∧ arena.Extends arena'

/-- What the folder is relied on for. -/
structure Rules.Trusted (grammar : Grammar Tag) (config : ArenaConfig) (rules : Rules Tag) :
    Prop where
  /-- A node is folded to a node of the arena. -/
  valid : ∀ fuel arena data arena' node, arena.Sound grammar →
    runProgram (createNodeHelper grammar config rules fuel) (rules.foldNode arena data) arena =
      some (arena', some node) → node < arena'.nodes.contents.length
  /-- Folding does not create the node that it leaves as it is. -/
  quiet : ∀ fuel arena data arena', arena.Sound grammar → arena.lookup grammar data = none →
    runProgram (createNodeHelper grammar config rules fuel) (rules.foldNode arena data) arena =
      some (arena', none) → arena'.lookup grammar data = none

omit [DecidableEq Tag] in
theorem runProgram_grows
    {create : Arena Tag → NodeRequest Tag → Option (Arena Tag × Creation)}
    (createGrows : ∀ arena request arena' creation, arena.Sound grammar →
      create arena request = some (arena', creation) → arena.GrowsTo grammar arena')
    {program : Program Tag} {arena arena' : Arena Tag} {result : Option Nat}
    (sound : arena.Sound grammar) (run : runProgram create program arena = some (arena', result)) :
    arena.GrowsTo grammar arena' := by
  induction program generalizing arena with
  | done node =>
      simp only [runProgram, Option.some.injEq, Prod.mk.injEq] at run
      rw [← run.1]
      exact ⟨sound, .refl arena⟩
  | create request next ih =>
      cases created : create arena request with
      | none => simp [runProgram, created] at run
      | some answer =>
          have grows := createGrows arena request answer.1 answer.2 sound created
          simp only [runProgram, created] at run
          have more := ih answer.2.node grows.1 run
          exact ⟨more.1, grows.2.trans more.2⟩
  | nodes operands next ih =>
      cases added : arena.shdNodes operands with
      | mk middle array =>
          have grows := (shdNodes_spec sound added).1
          simp only [runProgram, added] at run
          have more := ih array grows.sound run
          exact ⟨more.1, grows.extends_.trans more.2⟩

theorem Arena.Sound.lookup_eq_some {arena : Arena Tag} (sound : arena.Sound grammar)
    {data : NodeData Tag Nat} {i : Nat} (found : arena.lookup grammar data = some i) :
    grammar.nominal data.tag = false ∧
      arena.nodes.contents[i]?.map ArenaNode.data = some data := by
  rw [Arena.lookup] at found
  split at found
  case isTrue nominal => cases found
  case isFalse structural =>
      have at_ := sound.nodes.find_eq_some.mp found
      obtain ⟨node, inside, key⟩ := Option.bind_eq_some_iff.mp at_
      rw [nodeKey] at key
      split at key
      case isTrue nominal => cases key
      case isFalse _ =>
          refine ⟨by simpa using structural, ?_⟩
          rw [inside]
          exact key

omit [DecidableEq Tag] in
theorem describes_of_data {arena : Arena Tag} {i : Nat} {data : NodeData Tag Nat}
    (found : arena.nodes.contents[i]?.map ArenaNode.data = some data) :
    arena.describes i = some ⟨data.tag, data.payload.map arena.viewOperand⟩ := by
  obtain ⟨node, inside, same⟩ := Option.map_eq_some_iff.mp found
  simp [Arena.describes, inside, same]

theorem allocate_spec {arena : Arena Tag} (sound : arena.Sound grammar) {data : NodeData Tag Nat}
    {type : Option Nat} (holds : arena.Holds data.payload)
    (absent : arena.lookup grammar data = none) :
    arena.GrowsTo grammar (arena.allocate data type).1 ∧
      (arena.allocate data type).2 = arena.nodes.contents.length ∧
      (arena.allocate data type).1.nodes.contents[arena.nodes.contents.length]?.map
        ArenaNode.data = some data := by
  have exact : (arena.nodes.add ⟨data, type, (arena.ids ++
      [some arena.nodes.contents.length]).length⟩).Exact (nodeKey grammar) := by
    apply sound.nodes.add
    intro key same
    rw [Arena.lookup] at absent
    rw [nodeKey] at same
    split at same
    case isTrue nominal => cases same
    case isFalse structural =>
        cases same
        simpa [structural] using absent
  refine ⟨⟨⟨exact, sound.arrays, ?_, ?_, ?_⟩, List.prefix_append _ _, List.prefix_refl _⟩, rfl,
    by simp [Arena.allocate, Arena.allocateNodeId, Table.add]⟩
  · intro node inside
    simp only [Arena.allocate, Arena.allocateNodeId, Table.add, List.mem_append,
      List.mem_singleton] at inside
    cases inside with
    | inl old => exact sound.handles node old
    | inr new =>
        rw [new]
        exact holds
  · simp [Arena.allocate, Arena.allocateNodeId, Table.add, sound.ids, List.range_succ]
  · intro i node found
    simp only [Arena.allocate, Arena.allocateNodeId, Table.add] at found
    by_cases inside : i < arena.nodes.contents.length
    · rw [List.getElem?_append_left inside] at found
      exact sound.numbered i node found
    · have last : i = arena.nodes.contents.length := by
        have bound := (List.getElem?_eq_some_iff.mp found).1
        simp only [List.length_append, List.length_singleton] at bound
        omega
      simp only [last, List.getElem?_concat_length, Option.some.injEq] at found
      rw [← found, last]
      simp [sound.ids]

/-- What a creation answers. -/
structure Answered (grammar : Grammar Tag) (arena : Arena Tag) (request : NodeRequest Tag)
    (arena' : Arena Tag) (creation : Creation) : Prop where
  valid : creation.node < arena'.nodes.contents.length
  describes : (∀ node, creation ≠ .folded node) →
    arena'.describes creation.node = resolve grammar arena request
  fresh : ∀ node, creation = .allocated node → arena.nodes.contents.length ≤ node
  nominal : grammar.nominal request.tag = true → ∀ node, creation ≠ .found node

theorem resolve_tag {arena : Arena Tag} {request resolved : NodeRequest Tag}
    (equal : resolve grammar arena request = some resolved) : resolved.tag = request.tag := by
  cases payloads : request.payload.mapM (resolveOperand grammar arena) with
  | none => simp [resolve, payloads] at equal
  | some payload' =>
      simp only [resolve, payloads, Option.bind_eq_bind, Option.bind_some,
        Option.some.injEq] at equal
      rw [← equal]

theorem preConstructionValidation_spec {arena arena' : Arena Tag} {request : NodeRequest Tag}
    {data : NodeData Tag Nat} (sound : arena.Sound grammar)
    (validated : preConstructionValidation grammar arena request = some (arena', data)) :
    arena.GrowsTo grammar arena' ∧ arena'.Holds data.payload ∧ data.tag = request.tag ∧
      resolve grammar arena request =
        some ⟨data.tag, data.payload.map arena'.viewOperand⟩ := by
  cases resolved : resolve grammar arena request with
  | none => simp [preConstructionValidation, resolved] at validated
  | some request' =>
      cases interned : internOperands request'.payload arena with
      | mk middle payload =>
          have spec := internOperands_spec sound interned
          have tags := resolve_tag resolved
          simp only [preConstructionValidation, resolved, interned, Option.bind_eq_bind,
            Option.bind_some, Option.some.injEq, Prod.mk.injEq] at validated
          rw [← validated.1, ← validated.2]
          refine ⟨⟨spec.1.sound, spec.1.extends_⟩, spec.2.1, rfl, ?_⟩
          rw [spec.2.2, ← tags]

/-- The four steps of a creation. -/
theorem createNodeHelper_succ {fuel : Nat} {arena arena' : Arena Tag} {request : NodeRequest Tag}
    {creation : Creation}
    (created : createNodeHelper grammar config rules (fuel + 1) arena request =
      some (arena', creation)) :
    ∃ validated data typed type,
      preConstructionValidation grammar arena request = some (validated, data) ∧
      runWhen config.checkTypes (createNodeHelper grammar config rules fuel)
        (rules.checkType validated data) validated = some (typed, type) ∧
      ((∃ node, typed.lookup grammar data = some node ∧ arena' = typed ∧ creation = .found node) ∨
        (typed.lookup grammar data = none ∧ ∃ middle folded,
          runWhen config.allowFold (createNodeHelper grammar config rules fuel)
            (rules.foldNode typed data) typed = some (middle, folded) ∧
          ((∃ node, folded = some node ∧ creation = .folded node ∧
              arena' = ⟨middle.nodes.put (nodeKey grammar) node, middle.arrays, middle.ids⟩) ∨
            (folded = none ∧ arena' = (middle.allocate data type).1 ∧
              creation = .allocated (middle.allocate data type).2)))) := by
  rw [createNodeHelper] at created
  obtain ⟨⟨validated, data⟩, first, created⟩ := Option.bind_eq_some_iff.mp created
  obtain ⟨⟨typed, type⟩, second, created⟩ := Option.bind_eq_some_iff.mp created
  refine ⟨validated, data, typed, type, first, second, ?_⟩
  dsimp only at created
  cases search : typed.lookup grammar data with
  | some node =>
      simp only [search, Option.some.injEq, Prod.mk.injEq] at created
      exact .inl ⟨node, rfl, created.1.symm, created.2.symm⟩
  | none =>
      simp only [search] at created
      obtain ⟨⟨middle, folded⟩, third, created⟩ := Option.bind_eq_some_iff.mp created
      refine .inr ⟨rfl, middle, folded, third, ?_⟩
      cases folded with
      | some node =>
          simp only [Option.some.injEq, Prod.mk.injEq] at created
          exact .inl ⟨node, rfl, created.2.symm, created.1.symm⟩
      | none =>
          simp only [Option.some.injEq, Prod.mk.injEq] at created
          exact .inr ⟨rfl, created.1.symm, created.2.symm⟩

omit [DecidableEq Tag] in
theorem runWhen_grows {enabled : Bool}
    {create : Arena Tag → NodeRequest Tag → Option (Arena Tag × Creation)}
    (createGrows : ∀ arena request arena' creation, arena.Sound grammar →
      create arena request = some (arena', creation) → arena.GrowsTo grammar arena')
    {program : Program Tag} {arena arena' : Arena Tag} {result : Option Nat}
    (sound : arena.Sound grammar)
    (run : runWhen enabled create program arena = some (arena', result)) :
    arena.GrowsTo grammar arena' := by
  rw [runWhen] at run
  split at run
  case isTrue on => exact runProgram_grows createGrows sound run
  case isFalse off =>
      simp only [Option.some.injEq, Prod.mk.injEq] at run
      rw [← run.1]
      exact ⟨sound, .refl arena⟩

/-- A creation keeps the arena sound, and answers with what was asked for. -/
theorem createNodeHelper_spec (trusted : rules.Trusted grammar config) {fuel : Nat}
    {arena arena' : Arena Tag} {request : NodeRequest Tag} {creation : Creation}
    (sound : arena.Sound grammar)
    (created : createNodeHelper grammar config rules fuel arena request =
      some (arena', creation)) :
    arena.GrowsTo grammar arena' ∧ Answered grammar arena request arena' creation := by
  induction fuel generalizing arena arena' request creation with
  | zero => cases created
  | succ fuel ih =>
      have createGrows : ∀ arena request arena' creation, arena.Sound grammar →
          createNodeHelper grammar config rules fuel arena request = some (arena', creation) →
          arena.GrowsTo grammar arena' := fun _ _ _ _ sound created => (ih sound created).1
      obtain ⟨validated, data, typed, type, first, second, cases_⟩ := createNodeHelper_succ created
      obtain ⟨begun, holds, tags, resolved⟩ := preConstructionValidation_spec sound first
      have typedGrows := runWhen_grows createGrows begun.1 second
      have later : arena.Extends typed := begun.2.trans typedGrows.2
      cases cases_ with
      | inl isFound =>
          obtain ⟨node, found, arenas, answer⟩ := isFound
          obtain ⟨structural, at_⟩ := typedGrows.1.lookup_eq_some found
          have described : typed.describes node = resolve grammar arena request := by
            rw [describes_of_data at_, typedGrows.2.view holds, resolved]
          subst arenas answer
          refine ⟨⟨typedGrows.1, later⟩, ?_, fun _ => described, by simp, ?_⟩
          · obtain ⟨node', inside, -⟩ := Option.map_eq_some_iff.mp at_
            exact (List.getElem?_eq_some_iff.mp inside).1
          · intro nominal
            rw [← tags, structural] at nominal
            cases nominal
      | inr isNew =>
          obtain ⟨absent, middle, folded, third, results⟩ := isNew
          have foldGrows := runWhen_grows createGrows typedGrows.1 third
          cases results with
          | inl isFolded =>
              obtain ⟨node, some_, answer, arenas⟩ := isFolded
              have valid : node < middle.nodes.contents.length := by
                rw [runWhen] at third
                split at third
                case isTrue on =>
                    rw [some_] at third
                    exact trusted.valid fuel typed data middle node typedGrows.1 third
                case isFalse off =>
                    simp only [some_, Option.some.injEq, Prod.mk.injEq, reduceCtorEq,
                      and_false] at third
              rw [foldGrows.1.nodes.put valid] at arenas
              subst arenas answer
              exact ⟨⟨foldGrows.1, later.trans foldGrows.2⟩, valid, by simp, by simp, by simp⟩
          | inr isLeft =>
              obtain ⟨none_, arenas, answer⟩ := isLeft
              have stillAbsent : middle.lookup grammar data = none := by
                rw [runWhen] at third
                split at third
                case isTrue on =>
                    rw [none_] at third
                    exact trusted.quiet fuel typed data middle typedGrows.1 absent third
                case isFalse off =>
                    simp only [Option.some.injEq, Prod.mk.injEq] at third
                    rw [← third.1]
                    exact absent
              have holds' : middle.Holds data.payload :=
                holds.later (typedGrows.2.trans foldGrows.2)
              obtain ⟨grows, last, at_⟩ :=
                @allocate_spec _ grammar _ _ foldGrows.1 data type holds' stillAbsent
              have described : (middle.allocate data type).1.describes
                  (middle.allocate data type).2 = resolve grammar arena request := by
                rw [last, describes_of_data at_,
                  ((typedGrows.2.trans foldGrows.2).trans grows.2).view holds, resolved]
              subst arenas answer
              refine ⟨⟨grows.1, (later.trans foldGrows.2).trans grows.2⟩, ?_,
                fun _ => described, ?_, by simp⟩
              · show (middle.allocate data type).2 < _
                rw [last]
                simp [Arena.allocate, Arena.allocateNodeId, Table.add]
              · intro node same
                cases same
                rw [last]
                exact (later.trans foldGrows.2).nodes.length_le

/-! ## Sequences of creations -/

theorem Answered.later {arena middle final : Arena Tag} {request : NodeRequest Tag}
    {creation : Creation} (answered : Answered grammar arena request middle creation)
    (sound : middle.Sound grammar) (later : middle.Extends final) :
    Answered grammar arena request final creation where
  valid := Nat.lt_of_lt_of_le answered.valid later.nodes.length_le
  describes notFolded := by
    rw [← answered.describes notFolded, Arena.describes, Arena.describes,
      later.nodeAt answered.valid]
    cases found : middle.nodes.contents[creation.node]? with
    | none => rfl
    | some node =>
        have holds := sound.handles node (List.mem_of_getElem? found)
        simp only [Option.map_some, later.view holds]
  fresh := answered.fresh
  nominal := answered.nominal

/-- The answer is one to the request, and still right in the final arena. -/
def Served.Right (grammar : Grammar Tag) (final : Arena Tag) (entry : Served Tag) : Prop :=
  match entry.request, entry.answer with
  | .node request, .node creation => Answered grammar entry.before request final creation
  | .nodes operands, .nodes array => final.arrays.contents[array]? = some operands
  | _, _ => False

theorem Served.Right.later {middle final : Arena Tag} {entry : Served Tag}
    (right : entry.Right grammar middle) (sound : middle.Sound grammar)
    (later : middle.Extends final) : entry.Right grammar final := by
  obtain ⟨before, request, answer⟩ := entry
  cases request with
  | node request =>
      cases answer with
      | node creation => exact Answered.later right sound later
      | nodes array => exact right
  | nodes operands =>
      cases answer with
      | node creation => exact right
      | nodes array =>
          have inside : array < middle.arrays.contents.length :=
            (List.getElem?_eq_some_iff.mp right).1
          exact (later.arrayAt inside).trans right

theorem serve_spec (trusted : rules.Trusted grammar config) {fuel : Nat}
    {arena arena' : Arena Tag} {request : Request Tag} {answer : Answer}
    (sound : arena.Sound grammar)
    (served : serve grammar config rules fuel arena request = some (arena', answer)) :
    arena.GrowsTo grammar arena' ∧ Served.Right grammar arena' ⟨arena, request, answer⟩ := by
  cases request with
  | node request =>
      obtain ⟨⟨middle, creation⟩, created, same⟩ := Option.bind_eq_some_iff.mp served
      cases same
      exact createNodeHelper_spec trusted sound created
  | nodes operands =>
      cases added : arena.shdNodes operands with
      | mk middle array =>
          have spec := shdNodes_spec sound added
          simp only [serve, added, Option.some.injEq, Prod.mk.injEq] at served
          rw [← served.1, ← served.2]
          exact ⟨⟨spec.1.sound, spec.1.extends_⟩, spec.2⟩

theorem serveAll_spec (trusted : rules.Trusted grammar config) {fuel : Nat}
    {requests : List (Request Tag)} {arena final : Arena Tag} {log : List (Served Tag)}
    (sound : arena.Sound grammar)
    (run : serveAll grammar config rules fuel requests arena = some (final, log)) :
    arena.GrowsTo grammar final ∧ log.map Served.request = requests ∧
      ∀ entry ∈ log, entry.Right grammar final := by
  induction requests generalizing arena log with
  | nil =>
      cases run
      exact ⟨⟨sound, .refl _⟩, rfl, by simp⟩
  | cons request requests ih =>
      obtain ⟨⟨middle, answer⟩, first, run⟩ := Option.bind_eq_some_iff.mp run
      obtain ⟨⟨last, rest⟩, others, same⟩ := Option.bind_eq_some_iff.mp run
      cases same
      obtain ⟨grows, right⟩ := serve_spec trusted sound first
      obtain ⟨more, asked, rights⟩ := ih grows.1 others
      refine ⟨⟨more.1, grows.2.trans more.2⟩, by simp [asked], ?_⟩
      intro entry inside
      cases List.mem_cons.mp inside with
      | inl head =>
          rw [head]
          exact right.later grows.1 more.2
      | inr tail => exact rights entry tail

/-- No node was folded to another one. -/
def Creation.Kept (creation : Creation) : Prop := ∀ node, creation ≠ .folded node

/-- Pointers are as good as contents. -/
structure Canonical (grammar : Grammar Tag) (final : Arena Tag) (log : List (Served Tag)) :
    Prop where
  answered : ∀ entry ∈ log, entry.Right grammar final
  creations : ∀ before before' request request' creation creation',
    (⟨before, .node request, .node creation⟩ : Served Tag) ∈ log →
    (⟨before', .node request', .node creation'⟩ : Served Tag) ∈ log →
    grammar.nominal request.tag = false → grammar.nominal request'.tag = false →
    creation.Kept → creation'.Kept →
    (creation.node = creation'.node ↔
      resolve grammar before request = resolve grammar before' request')
  /-- Whatever a structural node was made from, or for. -/
  structural : ∀ i j node, final.nodes.contents[i]? = some node →
    grammar.nominal node.data.tag = false → (i = j ↔ final.describes i = final.describes j)
  arrays : ∀ before before' operands operands' array array',
    (⟨before, .nodes operands, .nodes array⟩ : Served Tag) ∈ log →
    (⟨before', .nodes operands', .nodes array'⟩ : Served Tag) ∈ log → (array = array' ↔ operands = operands')
  distinct : ∀ (i j : Nat) (node node' : ArenaNode Tag), final.nodes.contents[i]? = some node →
    final.nodes.contents[j]? = some node' → node.id = node'.id → i = j
  nodeSet : final.nodes.Exact (nodeKey grammar)
  nodesSet : final.arrays.Exact some

/-- Canonical, and every node is found by its id. -/
structure Interned (grammar : Grammar Tag) (final : Arena Tag) (log : List (Served Tag)) :
    Prop where
  canonical : Canonical grammar final log
  byId : ∀ i node, final.nodes.contents[i]? = some node → final.getNodeById node.id = some i

theorem canonical_of_run (trusted : rules.Trusted grammar config) {fuel : Nat}
    {requests : List (Request Tag)} {final : Arena Tag} {log : List (Served Tag)}
    (run : serveAll grammar config rules fuel requests Arena.new = some (final, log)) :
    Canonical grammar final log := by
  obtain ⟨⟨sound, -⟩, -, right⟩ := serveAll_spec trusted Arena.Sound.new run
  refine ⟨right, ?_, ?_, ?_, ?_, sound.nodes, sound.arrays⟩
  · intro before before' request request' creation creation' entry entry' structural structural'
      kept kept'
    have answer : Answered grammar before request final creation := right _ entry
    have answer' : Answered grammar before' request' final creation' := right _ entry'
    rw [← answer.describes kept, ← answer'.describes kept']
    constructor
    · intro same
      rw [same]
    · intro same
      have found := List.getElem?_eq_getElem answer.valid
      have described := answer.describes kept
      rw [Arena.describes, found, Option.map_some] at described
      have tags := resolve_tag described.symm
      apply sound.describes_injective found _ same
      rw [← structural, ← tags]
  · intro i j node found structural
    constructor
    · intro same
      rw [same]
    · exact sound.describes_injective found structural
  · intro before before' operands operands' array array' entry entry'
    have answer : final.arrays.contents[array]? = some operands := right _ entry
    have answer' : final.arrays.contents[array']? = some operands' := right _ entry'
    constructor
    · intro same
      rw [same, answer'] at answer
      exact (Option.some.inj answer).symm
    · intro same
      apply sound.array_injective (List.getElem?_eq_some_iff.mp answer).1
      rw [answer, answer', same]
  · intro i j node node' found found' same
    rw [sound.numbered i node found, sound.numbered j node' found'] at same
    omega

theorem serveAll_onlyLists {fuel : Nat} {requests : List (Request Tag)} {arena final : Arena Tag}
    {log : List (Served Tag)} (onlyLists : ∀ request ∈ requests, ∃ operands, request = .nodes operands)
    (run : serveAll grammar config rules fuel requests arena = some (final, log)) :
    final.nodes = arena.nodes := by
  induction requests generalizing arena log with
  | nil =>
      cases run
      rfl
  | cons request requests ih =>
      obtain ⟨⟨middle, answer⟩, first, run⟩ := Option.bind_eq_some_iff.mp run
      obtain ⟨⟨last, rest⟩, others, same⟩ := Option.bind_eq_some_iff.mp run
      cases same
      obtain ⟨operands, isList⟩ := onlyLists request (List.mem_cons_self)
      have kept : middle.nodes = arena.nodes := by
        rw [isList, serve, Option.some.injEq, Prod.mk.injEq] at first
        rw [← first.1, Arena.shdNodes]
        split <;> rfl
      rw [ih (fun other inside => onlyLists other (List.mem_cons_of_mem _ inside)) others, kept]

omit [DecidableEq Tag] in
/-- The id of the first node is that of the second. -/
theorem Arena.Sound.byId_iff_empty {arena : Arena Tag} (sound : arena.Sound grammar) :
    (∀ i node, arena.nodes.contents[i]? = some node → arena.getNodeById node.id = some i) ↔
      arena.nodes.contents = [] := by
  constructor
  · intro byId
    cases contents : arena.nodes.contents with
    | nil => rfl
    | cons node rest =>
        have first : arena.nodes.contents[0]? = some node := by rw [contents]; rfl
        have found := byId 0 node first
        rw [Arena.getNodeById, sound.numbered 0 node first, sound.ids, List.getElem?_map] at found
        cases second : (List.range arena.nodes.contents.length)[1]? with
        | none => simp [second] at found
        | some i =>
            have is1 := (List.getElem?_eq_some_iff.mp second).2
            simp only [List.getElem_range] at is1
            simp [second, ← is1] at found
  · intro empty i node found
    simp [empty] at found

/-- Interning is canonical, but the ids lead to the wrong nodes as soon as there is one. -/
theorem interned_iff_onlyLists (trusted : rules.Trusted grammar config) {fuel : Nat}
    {requests : List (Request Tag)} {final : Arena Tag} {log : List (Served Tag)}
    (run : serveAll grammar config rules fuel requests Arena.new = some (final, log)) :
    Canonical grammar final log ∧
      (Interned grammar final log ↔ ∀ request ∈ requests, ∃ operands, request = .nodes operands) := by
  have canonical := canonical_of_run trusted run
  obtain ⟨⟨sound, -⟩, asked, right⟩ := serveAll_spec trusted Arena.Sound.new run
  refine ⟨canonical, ?_⟩
  constructor
  · intro interned request inside
    have empty := sound.byId_iff_empty.mp interned.byId
    rw [← asked] at inside
    obtain ⟨entry, logged, same⟩ := List.mem_map.mp inside
    obtain ⟨before, asked', answer⟩ := entry
    cases asked' with
    | nodes operands => exact ⟨operands, same.symm⟩
    | node request' =>
        cases answer with
        | node creation =>
            have answered : Answered grammar before request' final creation := right _ logged
            have valid := answered.valid
            simp [empty] at valid
        | nodes array => exact absurd (right _ logged) id
  · intro onlyLists
    refine ⟨canonical, sound.byId_iff_empty.mpr ?_⟩
    rw [serveAll_onlyLists onlyLists run]
    rfl

end Interning

/-! ## A grammar of five tags -/

namespace OffsetSample

inductive Kind
  | intType
  | intLiteral
  | param
  | ptrArrayElementOffset
  | memAndValue
  deriving DecidableEq

def grammar : Grammar Kind := ⟨fun tag => tag = .param, .memAndValue⟩

def intType : NodeRequest Kind := ⟨.intType, [.word 32]⟩

def intLiteral (value : Nat) : NodeRequest Kind := ⟨.intLiteral, [.word 32, .word value]⟩

def param (name : String) : NodeRequest Kind := ⟨.param, [.string name]⟩

def offset (base index : Nat) : NodeRequest Kind :=
  ⟨.ptrArrayElementOffset, [.node (some base), .node (some index)]⟩

/-- A pointer moved by zero elements is the pointer. -/
def foldNode (arena : Arena Kind) (data : NodeData Kind Nat) : Program Kind :=
  match data.payload with
  | [.node (some base), .node (some index)] =>
      if data.tag = .ptrArrayElementOffset ∧ base < arena.nodes.contents.length ∧
          (arena.nodes.contents[index]?.map ArenaNode.data) =
            some ⟨.intLiteral, [.word 32, .word 0]⟩ then
        .done (some base)
      else .done none
  | _ => .done none

def rules : Rules Kind where
  checkType _ data := if data.tag = .intLiteral then .create intType fun type => .done (some type)
    else .done none
  foldNode := foldNode

theorem foldNode_eq (arena : Arena Kind) (data : NodeData Kind Nat) :
    rules.foldNode arena data = .done none ∨ ∃ base,
      rules.foldNode arena data = .done (some base) ∧ base < arena.nodes.contents.length := by
  show foldNode arena data = _ ∨ ∃ base, foldNode arena data = _ ∧ _
  unfold foldNode
  split
  · split
    case isTrue offset => exact .inr ⟨_, rfl, offset.2.1⟩
    case isFalse _ => exact .inl rfl
  · exact .inl rfl

theorem trusted (config : ArenaConfig) : rules.Trusted grammar config where
  valid fuel arena data arena' node sound run := by
    cases foldNode_eq arena data with
    | inl kept =>
        rw [kept] at run
        cases run
    | inr folded =>
        obtain ⟨base, equal, inside⟩ := folded
        rw [equal] at run
        cases run
        exact inside
  quiet fuel arena data arena' sound absent run := by
    cases foldNode_eq arena data with
    | inl kept =>
        rw [kept] at run
        cases run
        exact absent
    | inr folded =>
        obtain ⟨base, equal, inside⟩ := folded
        rw [equal] at run
        cases run

/-- The literal brings its type with it; the offset is the parameter. -/
def requests : List (Request Kind) :=
  [.node (intLiteral 0), .node (param "p"), .node (offset 2 1), .nodes [some 1, some 2],
    .node (intLiteral 0), .node (param "p"), .nodes [some 1, some 2]]

end OffsetSample

theorem offsets_interned :
    ∃ final log, serveAll OffsetSample.grammar ⟨true, true⟩ OffsetSample.rules 3
        OffsetSample.requests Arena.new = some (final, log) ∧
      Canonical OffsetSample.grammar final log ∧ ¬ Interned OffsetSample.grammar final log := by
  have run : serveAll OffsetSample.grammar ⟨true, true⟩ OffsetSample.rules 3
      OffsetSample.requests Arena.new = some (_, _) := rfl
  have result := interned_iff_onlyLists (OffsetSample.trusted ⟨true, true⟩) run
  refine ⟨_, _, run, result.1, fun interned => ?_⟩
  obtain ⟨operands, isList⟩ := result.2.mp interned _ List.mem_cons_self
  cases isList

/-- The literal is asked for first, and its id leads past the end. -/
theorem firstLiteral_not_byId :
    ∃ final log, serveAll OffsetSample.grammar ⟨false, true⟩ OffsetSample.rules 1
        [.node (OffsetSample.intLiteral 7), .node (OffsetSample.intLiteral 8)] Arena.new =
          some (final, log) ∧
      final.nodes.contents[0]?.map ArenaNode.id = some 1 ∧ final.getNodeById 1 = some 1 ∧
      ¬ Interned OffsetSample.grammar final log := by
  refine ⟨_, _, rfl, rfl, rfl, fun interned => ?_⟩
  have found := interned.byId 0 _ rfl
  cases found

end Shady
