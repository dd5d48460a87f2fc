import Shady.Passes.StackFrameSlots

/-!
# Steps that go right on the stack

What a step must not do to the frames in use, and the invariant that is kept by the steps
that do not.
-/

set_option autoImplicit false

namespace Shady

section Clear
variable (config : PointerModel) (program : List LoweredFunction)

/-! ## When a step goes right -/

/-- Every frame in use ends at or before that stack size. -/
def StackMachine.Frees (m : StackMachine) (size : Nat) : Prop :=
  ∀ activation ∈ m.activations, activation.executed ≠ [] → activation.finish ≤ size

/-- The bytes are not those of the slots of a frame in use. -/
def StackMachine.Misses (m : StackMachine) (region : Region) : Prop :=
  ∀ activation ∈ m.activations, activation.executed ≠ [] →
    region.finish ≤ 2 * activation.sizeOnEntry ∨
      2 * activation.sizeOnEntry + activation.frameSize ≤ region.address

/-- The value on top was pushed last, and lies above the frames in use. -/
structure StackMachine.Pops (m : StackMachine) (size : Nat) : Prop where
  held : size ≤ m.stackSize
  last : m.pushed.head? = some ⟨m.stackSize - size, size⟩
  frees : m.Frees (m.stackSize - size)

def StackMachine.PopsAll : StackMachine → List Nat → Prop
  | _, [] => True
  | m, size :: sizes => m.Pops size ∧ (m.pop size).PopsAll sizes

/-- The parameters are on top. -/
def StackMachine.FindsParams (m : StackMachine) (function : Nat) : Prop :=
  ∀ fn sizes, program[function]? = some fn → fn.params.mapM (bytesOf config) = some sizes →
    m.PopsAll sizes

def StackMachine.ClearInstr (m : StackMachine) (top : Activation) (value : Nat) :
    StackInstr StackSlot → Prop
  | .stackAlloc _ =>
      (m.stackSize ≤ top.sizeOnEntry ∨ top.executed ≠ [] ∧ m.stackSize ≤ top.finish) ∧
        top.finish < 2 ^ 32
  | .pushStack type => ∀ size, bytesOf config type = some size →
      m.stackSize + size < 2 ^ 32 ∧ m.Misses ⟨m.stackSize, size⟩
  | .popStack type => ∀ size, bytesOf config type = some size → m.Pops size
  | .setStackSize => m.Frees (stackPtrT value)
  | .call callee => m.FindsParams config program callee

def StackMachine.Clear (m : StackMachine) : StackEvent → Prop
  | .instr value => ∀ top rest instr code, m.activations = top :: rest → top.code = instr :: code →
      m.ClearInstr config program top value instr
  | .enter function _ => m.FindsParams config program function
  | _ => True

/-! ## The invariant -/

/-- What a tail gets back is the size below which its function has left everything. -/
def SavedSizes : List Activation → Prop
  | [] => True
  | activation :: rest =>
      SavedSizes rest ∧
        if activation.continues then rest.head?.map Activation.saved = some activation.saved
        else ∀ caller ∈ rest, caller.executed ≠ [] → caller.finish ≤ activation.saved

/-- An execution of a function of the program. -/
structure Activation.Legal (activation : Activation) (fn : LoweredFunction) : Prop where
  listed : fn ∈ program
  blocks : activation.blocks = fn.blocks
  frameSize : activation.frameSize = fn.frameSize
  code : ∀ slot ∈ activation.code.filterMap slotOf, slot ∈ slotsOf fn.blocks
  executed : ∀ slot ∈ activation.executed, slot ∈ slotsOf fn.blocks
  terminator : activation.terminator ≠ .fnRet false
  base : activation.baseOnEntry = activation.sizeOnEntry
  small : activation.executed ≠ [] → activation.finish < 2 ^ 32
  savedSmall : activation.saved < 2 ^ 32

structure StackInvariant (m : StackMachine) : Prop where
  bounded : m.stackSize < 2 ^ 32
  legal : ∀ activation ∈ m.activations, ∃ fn, activation.Legal program fn
  ends : m.Frees m.stackSize
  nested : m.activations.Pairwise fun callee caller =>
    caller.executed ≠ [] → caller.finish ≤ callee.sizeOnEntry
  below : ∀ region ∈ m.pushed, region.finish ≤ m.stackSize
  ordered : m.pushed.Pairwise fun upper lower => lower.finish ≤ upper.address
  missed : ∀ region ∈ m.pushed, m.Misses region
  saved : SavedSizes m.activations

end Clear

section Steps
variable {config : PointerModel} {program : List LoweredFunction} {m : StackMachine}

theorem stackPtrT_eq {n : Nat} (bounded : n < 2 ^ 32) : stackPtrT n = n := Nat.mod_eq_of_lt bounded

theorem stackPtrT_lt (n : Nat) : stackPtrT n < 2 ^ 32 := Nat.mod_lt _ (by decide)

theorem push_stackSize {size : Nat} (bounded : m.stackSize + size < 2 ^ 32) :
    (m.push size).stackSize = m.stackSize + size := by
  show stackPtrT (m.stackSize + stackPtrT size) = _
  rw [stackPtrT_eq (show size < 2 ^ 32 by omega), stackPtrT_eq bounded]

theorem StackInvariant.push (invariant : StackInvariant program m) {size : Nat}
    (bounded : m.stackSize + size < 2 ^ 32) (misses : m.Misses ⟨m.stackSize, size⟩) :
    StackInvariant program (m.push size) := by
  have next := push_stackSize bounded
  refine ⟨next ▸ bounded, invariant.legal, ?_, invariant.nested, ?_, ?_, ?_, invariant.saved⟩
  · intro activation inside used
    have := invariant.ends activation inside used
    omega
  · intro region inside
    rw [next]
    cases List.mem_cons.mp inside with
    | inl new =>
        rw [new]
        exact Nat.le_refl _
    | inr old =>
        have := invariant.below region old
        omega
  · exact List.pairwise_cons.mpr ⟨invariant.below, invariant.ordered⟩
  · intro region inside
    cases List.mem_cons.mp inside with
    | inl new => exact new ▸ misses
    | inr old => exact invariant.missed region old

theorem StackInvariant.pop (invariant : StackInvariant program m) {size : Nat}
    (pops : m.Pops size) : StackInvariant program (m.pop size) := by
  have bounded := invariant.bounded
  have held := pops.held
  have next : (m.pop size).stackSize = m.stackSize - size := by
    show stackPtrT (m.stackSize + (2 ^ 32 - stackPtrT size)) = _
    rw [stackPtrT_eq (show size < 2 ^ 32 by omega), stackPtrT]
    omega
  obtain ⟨rest, pushed⟩ := List.head?_eq_some_iff.mp pops.last
  have older : ∀ region ∈ m.pushed.tail, region ∈ m.pushed := fun region => List.mem_of_mem_tail
  refine ⟨?_, invariant.legal, ?_, invariant.nested, ?_, ?_, ?_, invariant.saved⟩
  · rw [next]
    omega
  · rw [next]
    exact pops.frees
  · rw [next]
    intro region inside
    have ordered := invariant.ordered
    rw [pushed, List.pairwise_cons] at ordered
    have tail : (m.pop size).pushed = rest := by
      show m.pushed.tail = rest
      rw [pushed, List.tail_cons]
    exact ordered.1 region (tail ▸ inside)
  · exact invariant.ordered.sublist (List.tail_sublist _)
  · exact fun region inside => invariant.missed region (older region inside)

/-- What lies below the new size is all that is left. -/
theorem StackInvariant.setStackSize (invariant : StackInvariant program m) {size : Nat}
    (bounded : size < 2 ^ 32) (frees : m.Frees size) :
    StackInvariant program (m.setStackSize size) := by
  have kept : ∀ region ∈ (m.setStackSize size).pushed,
      region ∈ m.pushed ∧ region.finish ≤ size := by
    intro region inside
    simpa using List.mem_filter.mp inside
  exact ⟨bounded, invariant.legal, frees, invariant.nested, fun region inside => (kept region inside).2,
    invariant.ordered.sublist List.filter_sublist,
    fun region inside => invariant.missed region (kept region inside).1, invariant.saved⟩

theorem StackInvariant.popParams (invariant : StackInvariant program m) {sizes : List Nat}
    (pops : m.PopsAll sizes) :
    StackInvariant program (m.popParams sizes) := by
  induction sizes generalizing m with
  | nil => exact invariant
  | cons size sizes ih => exact ih (invariant.pop pops.1) pops.2

/-- What is on the stack does not depend on the code. -/
theorem StackInvariant.withTop {top top' : Activation} {rest : List Activation}
    (invariant : StackInvariant program m) (innermost : m.activations = top :: rest)
    (legal : ∃ fn, top'.Legal program fn) (executed : top'.executed = top.executed)
    (entry : top'.sizeOnEntry = top.sizeOnEntry) (frame : top'.frameSize = top.frameSize)
    (saved : top'.saved = top.saved) (continues : top'.continues = top.continues) :
    StackInvariant program ⟨m.stackSize, top' :: rest, m.pushed⟩ := by
  obtain ⟨size, activations, pushed⟩ := m
  simp only at innermost
  subst innermost
  have finish : top'.finish = top.finish := by rw [Activation.finish, Activation.finish, entry, frame]
  refine ⟨invariant.bounded, ?_, ?_, ?_, invariant.below, invariant.ordered, ?_, ?_⟩
  · intro activation inside
    cases List.mem_cons.mp inside with
    | inl new => exact new ▸ legal
    | inr old => exact invariant.legal activation (List.mem_cons_of_mem _ old)
  · intro activation inside used
    cases List.mem_cons.mp inside with
    | inl new =>
        rw [new, finish]
        rw [new, executed] at used
        exact invariant.ends top List.mem_cons_self used
    | inr old => exact invariant.ends activation (List.mem_cons_of_mem _ old) used
  · have nested := List.pairwise_cons.mp invariant.nested
    rw [List.pairwise_cons, entry]
    exact nested
  · intro region inside activation among used
    have missed := invariant.missed region inside
    cases List.mem_cons.mp among with
    | inl new =>
        rw [new, entry, frame]
        rw [new, executed] at used
        exact missed top List.mem_cons_self used
    | inr old => exact missed activation (List.mem_cons_of_mem _ old) used
  · have before := invariant.saved
    rw [SavedSizes] at before ⊢
    rw [saved, continues]
    exact before

/-- A slot is handed out where nothing lies above the frame. -/
theorem StackInvariant.stackAlloc {top top' : Activation} {rest : List Activation} {slot : StackSlot}
    (invariant : StackInvariant program m) (innermost : m.activations = top :: rest)
    (changed : top' = { top with code := top'.code, executed := slot :: top.executed })
    (legal : ∃ fn, top'.Legal program fn)
    (nothingAbove : m.stackSize ≤ top.sizeOnEntry ∨ top.executed ≠ [] ∧ m.stackSize ≤ top.finish)
    (small : top.finish < 2 ^ 32) :
    StackInvariant program ⟨stackPtrT (top.sizeOnEntry + top.frameSize), top' :: rest, m.pushed⟩ := by
  obtain ⟨size, activations, pushed⟩ := m
  simp only at innermost nothingAbove
  subst innermost
  have entry : top'.sizeOnEntry = top.sizeOnEntry := by rw [changed]
  have frame : top'.frameSize = top.frameSize := by rw [changed]
  have finish : top'.finish = top.finish := by rw [Activation.finish, Activation.finish, entry, frame]
  have next : stackPtrT (top.sizeOnEntry + top.frameSize) = top.finish := stackPtrT_eq small
  have after : top.sizeOnEntry ≤ top.finish := Nat.le_add_right _ _
  have grows : size ≤ top.finish := by
    cases nothingAbove with
    | inl below => exact Nat.le_trans below after
    | inr above => exact above.2
  have nested := List.pairwise_cons.mp invariant.nested
  rw [next]
  refine ⟨small, ?_, ?_, ?_, ?_, invariant.ordered, ?_, ?_⟩
  · intro activation inside
    cases List.mem_cons.mp inside with
    | inl new => exact new ▸ legal
    | inr old => exact invariant.legal activation (List.mem_cons_of_mem _ old)
  · intro activation inside used
    cases List.mem_cons.mp inside with
    | inl new => rw [new, finish]
    | inr old => exact Nat.le_trans (nested.1 activation old used) after
  · rw [List.pairwise_cons, entry]
    exact nested
  · intro region inside
    exact Nat.le_trans (invariant.below region inside) grows
  · intro region inside activation among used
    cases List.mem_cons.mp among with
    | inl new =>
        rw [new, entry, frame]
        cases nothingAbove with
        | inl below =>
            have ends : region.finish ≤ size := invariant.below region inside
            omega
        | inr above => exact invariant.missed region inside top List.mem_cons_self above.1
    | inr old => exact invariant.missed region inside activation (List.mem_cons_of_mem _ old) used
  · have before := invariant.saved
    rw [SavedSizes] at before ⊢
    rw [changed]
    exact before

theorem SavedSizes.suffix {activations fewer : List Activation} (saved : SavedSizes activations)
    (isSuffix : fewer <:+ activations) : SavedSizes fewer := by
  induction activations with
  | nil => rwa [List.suffix_nil.mp isSuffix]
  | cons activation rest ih =>
      cases List.suffix_cons_iff.mp isSuffix with
      | inl whole => rwa [whole]
      | inr later => exact ih saved.1 later

/-- Frames are left. -/
theorem StackInvariant.suffix {fewer : List Activation} (invariant : StackInvariant program m)
    (isSuffix : fewer <:+ m.activations) : StackInvariant program ⟨m.stackSize, fewer, m.pushed⟩ :=
  ⟨invariant.bounded, fun activation inside => invariant.legal activation (isSuffix.subset inside),
    fun activation inside => invariant.ends activation (isSuffix.subset inside),
    invariant.nested.sublist isSuffix.sublist, invariant.below, invariant.ordered,
    fun region pushed activation inside =>
      invariant.missed region pushed activation (isSuffix.subset inside),
    invariant.saved.suffix isSuffix⟩

theorem returned_suffix (activations : List Activation) :
    returned activations <:+ activations := by
  induction activations with
  | nil => exact List.suffix_refl _
  | cons activation rest ih =>
      rw [returned]
      split
      case isTrue => exact ih.trans (List.suffix_cons _ _)
      case isFalse => exact List.suffix_cons _ _

theorem SavedSizes.frees {top : Activation} {rest : List Activation}
    (saved : SavedSizes (top :: rest)) :
    ∀ caller ∈ returned (top :: rest), caller.executed ≠ [] → caller.finish ≤ top.saved := by
  induction rest generalizing top with
  | nil =>
      rw [returned]
      split <;> simp [returned]
  | cons next rest ih =>
      rw [returned]
      split
      case isTrue continues =>
          have same := saved.2
          rw [if_pos continues, List.head?_cons, Option.map_some, Option.some.injEq] at same
          rw [← same]
          exact ih saved.1
      case isFalse starts =>
          have below := saved.2
          rw [if_neg starts] at below
          exact below

theorem popParams_activations (sizes : List Nat) :
    (m.popParams sizes).activations = m.activations := by
  induction sizes generalizing m with
  | nil => rfl
  | cons size sizes ih => exact @ih (m.pop size)

theorem enter_spec {function : Nat} {continues : Bool} {m' : StackMachine}
    (entered : m.enter config program function continues = some m') :
    ∃ fn block sizes saved, program[function]? = some fn ∧ block ∈ fn.blocks ∧
      fn.params.mapM (bytesOf config) = some sizes ∧
      (m.popParams sizes).savedOnEntry continues = some saved ∧
      m' = ⟨(m.popParams sizes).stackSize, ⟨block.instrs, block.terminator, fn.blocks, false,
        continues, m.stackSize, m.stackSize, fn.frameSize, saved, []⟩ :: m.activations,
        (m.popParams sizes).pushed⟩ := by
  simp only [StackMachine.enter, Option.bind_eq_bind, Option.bind_eq_some_iff,
    Option.some.injEq] at entered
  obtain ⟨fn, listed, block, first, sizes, measured, saved, kept, equal⟩ := entered
  exact ⟨fn, block, sizes, saved, listed, List.mem_of_mem_head? first, measured, kept, equal.symm⟩

theorem StackInvariant.enter (framed : ∀ fn ∈ program, Framed config fn)
    (invariant : StackInvariant program m) {function : Nat} {continues : Bool} {m' : StackMachine}
    (finds : m.FindsParams config program function)
    (entered : m.enter config program function continues = some m') :
    StackInvariant program m' := by
  obtain ⟨fn, block, sizes, saved, listed, first, measured, kept, equal⟩ := enter_spec entered
  have after := invariant.popParams (finds fn sizes listed measured)
  have same := popParams_activations (m := m) sizes
  rw [StackMachine.savedOnEntry, same] at kept
  have inProgram : fn ∈ program := List.mem_of_getElem? listed
  have savedSmall : saved < 2 ^ 32 := by
    split at kept
    case isTrue tail =>
        obtain ⟨caller, among, is⟩ := Option.map_eq_some_iff.mp kept
        obtain ⟨fn', legal⟩ := invariant.legal caller (List.mem_of_mem_head? among)
        exact is ▸ legal.savedSmall
    case isFalse own => exact Option.some.inj kept ▸ after.bounded
  have frees := after.ends
  rw [StackMachine.Frees, same] at frees
  rw [equal]
  refine ⟨after.bounded, ?_, ?_, ?_, after.below, after.ordered, ?_, ?_⟩
  · intro activation inside
    cases List.mem_cons.mp inside with
    | inl new =>
        rw [new]
        refine ⟨fn, inProgram, rfl, rfl, ?_, by simp, (framed fn inProgram).restores block first,
          rfl, fun used => absurd rfl used, savedSmall⟩
        intro slot among
        exact List.mem_flatMap.mpr ⟨block, first, among⟩
    | inr old => exact invariant.legal activation old
  · intro activation inside used
    cases List.mem_cons.mp inside with
    | inl new =>
        rw [new] at used
        exact absurd rfl used
    | inr old => exact frees activation old used
  · rw [List.pairwise_cons]
    exact ⟨invariant.ends, invariant.nested⟩
  · intro region pushed activation inside used
    cases List.mem_cons.mp inside with
    | inl new =>
        rw [new] at used
        exact absurd rfl used
    | inr old => exact after.missed region pushed activation (same ▸ old) used
  · refine ⟨invariant.saved, ?_⟩
    split at kept
    case isTrue tail =>
        rw [if_pos tail]
        exact kept
    case isFalse own =>
        rw [if_neg own, ← Option.some.inj kept]
        exact frees

/-! ## Spills -/

theorem popsAll_append {first second : List Nat} : m.PopsAll (first ++ second) ↔
    m.PopsAll first ∧ (m.popParams first).PopsAll second := by
  induction first generalizing m with
  | nil => simp [StackMachine.PopsAll, StackMachine.popParams]
  | cons size first ih =>
      rw [List.cons_append, StackMachine.PopsAll, StackMachine.PopsAll, ih, and_assoc]
      rfl

theorem pop_push {size : Nat} (bounded : m.stackSize + size < 2 ^ 32)
    (frees : m.Frees m.stackSize) : (m.push size).Pops size ∧ (m.push size).pop size = m := by
  have next := push_stackSize bounded
  constructor
  · refine ⟨by omega, ?_, ?_⟩
    · rw [next, Nat.add_sub_cancel]
      rfl
    · rw [next, Nat.add_sub_cancel]
      exact frees
  · obtain ⟨stackSize, activations, pushed⟩ := m
    have back : stackPtrT (stackSize + size + (2 ^ 32 - size)) = stackSize := by
      simp only [stackPtrT] at *
      omega
    rw [StackMachine.pop, next, stackPtrT_eq (show size < 2 ^ 32 by omega)]
    simp only [back]
    rfl

/-- A tail pops what its function spilled, and leaves the stack as it was. -/
theorem recoverSpills_addSpills {sizes : List Nat} (bounded : m.stackSize + sizes.sum < 2 ^ 32)
    (frees : m.Frees m.stackSize) :
    (m.addSpills sizes).PopsAll sizes.reverse ∧ (m.addSpills sizes).recoverSpills sizes = m := by
  induction sizes generalizing m with
  | nil => exact ⟨trivial, rfl⟩
  | cons size sizes ih =>
      rw [List.sum_cons] at bounded
      have fits : m.stackSize + size < 2 ^ 32 := by omega
      have next := push_stackSize fits
      have pushed := pop_push fits frees
      have later : (m.push size).Frees (m.push size).stackSize := by
        intro activation inside used
        have := frees activation inside used
        omega
      have more := @ih (m.push size) (by omega) later
      have spilled : m.addSpills (size :: sizes) = (m.push size).addSpills sizes := rfl
      rw [StackMachine.recoverSpills] at more ⊢
      rw [spilled, List.reverse_cons, popsAll_append, more.2]
      refine ⟨⟨more.1, pushed.1, trivial⟩, ?_⟩
      calc ((m.push size).addSpills sizes).popParams (sizes.reverse ++ [size])
          = (((m.push size).addSpills sizes).popParams sizes.reverse).pop size := by
            simp only [StackMachine.popParams, List.foldl_append, List.foldl_cons, List.foldl_nil]
        _ = (m.push size).pop size := by rw [more.2]
        _ = m := pushed.2

/-! ## Steps, inverted -/

theorem execute_instr {value : Nat} {m' : StackMachine}
    (ran : m.execute config program (.instr value) = some m') :
    ∃ top rest instr code, m.activations = top :: rest ∧ top.code = instr :: code ∧
      m.executeInstr config program top rest value code instr = some m' := by
  simp only [StackMachine.execute] at ran
  split at ran
  case h_1 top rest innermost =>
      split at ran
      case h_1 instr code _ isCode => exact ⟨top, rest, instr, code, innermost, isCode, ran⟩
      case h_2 => cases ran
  case h_2 => cases ran

theorem execute_jump {target : Nat} {m' : StackMachine}
    (ran : m.execute config program (.jump target) = some m') :
    ∃ top rest block, m.activations = top :: rest ∧ block ∈ top.blocks ∧
      m' = ⟨m.stackSize, { top with code := block.instrs, terminator := block.terminator } :: rest,
        m.pushed⟩ := by
  simp only [StackMachine.execute] at ran
  split at ran
  case h_1 top rest innermost =>
      split at ran
      case h_1 targets _ _ _ =>
          obtain ⟨block, found, equal⟩ := Option.bind_eq_some_iff.mp ran
          split at equal
          case isTrue =>
              exact ⟨top, rest, block, innermost, List.mem_of_getElem? found,
                (Option.some.inj equal).symm⟩
          case isFalse => cases equal
      case h_2 => cases ran
  case h_2 => cases ran

theorem execute_fnRet {m' : StackMachine} (ran : m.execute config program .fnRet = some m') :
    ∃ top rest restores, m.activations = top :: rest ∧ top.terminator = .fnRet restores ∧
      m' = if restores then
          (⟨m.stackSize, returned (top :: rest), m.pushed⟩ : StackMachine).setStackSize top.saved
        else ⟨m.stackSize, returned (top :: rest), m.pushed⟩ := by
  simp only [StackMachine.execute] at ran
  split at ran
  case h_1 top rest innermost =>
      split at ran
      case h_1 restores _ _ terminator =>
          exact ⟨top, rest, restores, innermost, terminator, (Option.some.inj ran).symm⟩
      case h_2 => cases ran
  case h_2 => cases ran

theorem execute_leave {suspends : Bool} {m' : StackMachine}
    (ran : m.execute config program (.leave suspends) = some m') :
    ∃ top rest, m.activations = top :: rest ∧
      m' = ⟨m.stackSize, if suspends then { top with suspended := true } :: rest else rest,
        m.pushed⟩ := by
  simp only [StackMachine.execute] at ran
  split at ran
  case h_1 top rest innermost =>
      split at ran
      case h_1 => exact ⟨top, rest, innermost, (Option.some.inj ran).symm⟩
      case h_2 => cases ran
  case h_2 => cases ran

theorem execute_enter {function : Nat} {continues : Bool} {m' : StackMachine}
    (ran : m.execute config program (.enter function continues) = some m') :
    m.enter config program function continues = some m' := by
  simp only [StackMachine.execute] at ran
  split at ran
  case isTrue => exact ran
  case isFalse => cases ran

theorem execute_abandon {m' : StackMachine} (ran : m.execute config program .abandon = some m') :
    ∃ top rest, m.activations = top :: rest ∧ m' = ⟨m.stackSize, rest, m.pushed⟩ := by
  simp only [StackMachine.execute] at ran
  split at ran
  case h_1 top rest innermost =>
      split at ran
      case isTrue => exact ⟨top, rest, innermost, (Option.some.inj ran).symm⟩
      case isFalse => cases ran
  case h_2 => cases ran

/-! ## The invariant is kept -/

theorem Activation.Legal.withCode {top : Activation} {fn : LoweredFunction}
    {code : List (StackInstr StackSlot)} {instr : StackInstr StackSlot} (legal : top.Legal program fn)
    (isCode : top.code = instr :: code) : ({ top with code := code } : Activation).Legal program fn :=
  { legal with
    code := fun slot inside => by
      apply legal.code slot
      rw [isCode]
      obtain ⟨instr', among, same⟩ := List.mem_filterMap.mp inside
      exact List.mem_filterMap.mpr ⟨instr', List.mem_cons_of_mem _ among, same⟩ }

theorem StackMachine.Pops.congr {m' : StackMachine} {size : Nat} (pops : m.Pops size)
    (frames : ∀ size, m.Frees size → m'.Frees size) (sizes : m'.stackSize = m.stackSize)
    (pushed : m'.pushed = m.pushed) : m'.Pops size where
  held := sizes ▸ pops.held
  last := by
    rw [sizes, pushed]
    exact pops.last
  frees := by
    rw [sizes]
    exact frames _ pops.frees

theorem StackMachine.PopsAll.congr {m' : StackMachine} {params : List Nat} (pops : m.PopsAll params)
    (frames : ∀ size, m.Frees size → m'.Frees size) (sizes : m'.stackSize = m.stackSize)
    (pushed : m'.pushed = m.pushed) : m'.PopsAll params := by
  induction params generalizing m m' with
  | nil => trivial
  | cons size params ih =>
      refine ⟨pops.1.congr frames sizes pushed, ih pops.2 frames ?_ ?_⟩
      · simp only [StackMachine.pop, sizes]
      · simp only [StackMachine.pop, pushed]

theorem StackInvariant.executeInstr (framed : ∀ fn ∈ program, Framed config fn)
    (invariant : StackInvariant program m) {top : Activation} {rest : List Activation} {value : Nat}
    {code : List (StackInstr StackSlot)} {instr : StackInstr StackSlot} {m' : StackMachine}
    (innermost : m.activations = top :: rest) (isCode : top.code = instr :: code)
    (clear : m.ClearInstr config program top value instr)
    (ran : m.executeInstr config program top rest value code instr = some m') :
    StackInvariant program m' := by
  obtain ⟨fn, legal⟩ := invariant.legal top (innermost ▸ List.mem_cons_self)
  have advanced : StackInvariant program ⟨m.stackSize, { top with code := code } :: rest, m.pushed⟩ :=
    invariant.withTop innermost ⟨fn, legal.withCode isCode⟩ rfl rfl rfl rfl rfl
  have sameFrames : ∀ size, m.Frees size →
      (⟨m.stackSize, { top with code := code } :: rest, m.pushed⟩ : StackMachine).Frees size := by
    intro size frees activation inside used
    cases List.mem_cons.mp inside with
    | inl new =>
        rw [new] at used ⊢
        exact frees top (innermost ▸ List.mem_cons_self) used
    | inr old => exact frees activation (innermost ▸ List.mem_cons_of_mem _ old) used
  cases instr with
  | stackAlloc slot =>
      cases ran
      apply invariant.stackAlloc innermost rfl ⟨fn, ?_⟩ clear.1 clear.2
      have fromCode := legal.code
      rw [isCode, List.filterMap_cons_some (by rfl : slotOf (.stackAlloc slot) = some slot)] at fromCode
      have legal' := legal.withCode isCode
      refine { legal' with executed := ?_, small := fun _ => clear.2 }
      intro slot' inside
      cases List.mem_cons.mp inside with
      | inl new => exact new ▸ fromCode slot List.mem_cons_self
      | inr old => exact legal.executed slot' old
  | pushStack type =>
      obtain ⟨size, measured, equal⟩ := Option.map_eq_some_iff.mp ran
      obtain ⟨bounded, misses⟩ := clear size measured
      rw [← equal]
      apply advanced.push bounded
      intro activation inside used
      cases List.mem_cons.mp inside with
      | inl new =>
          rw [new] at used ⊢
          exact misses top (innermost ▸ List.mem_cons_self) used
      | inr old => exact misses activation (innermost ▸ List.mem_cons_of_mem _ old) used
  | popStack type =>
      obtain ⟨size, measured, equal⟩ := Option.map_eq_some_iff.mp ran
      have pops := clear size measured
      rw [← equal]
      exact advanced.pop (pops.congr sameFrames rfl rfl)
  | setStackSize =>
      cases ran
      exact advanced.setStackSize (stackPtrT_lt value) (sameFrames _ clear)
  | call callee =>
      apply advanced.enter framed _ ran
      intro fn' sizes listed measured
      exact (clear fn' sizes listed measured).congr sameFrames rfl rfl

theorem StackInvariant.execute (framed : ∀ fn ∈ program, Framed config fn)
    (invariant : StackInvariant program m) {event : StackEvent} {m' : StackMachine}
    (clear : m.Clear config program event) (ran : m.execute config program event = some m') :
    StackInvariant program m' := by
  cases event with
  | instr value =>
      obtain ⟨top, rest, instr, code, innermost, isCode, ran⟩ := execute_instr ran
      exact invariant.executeInstr framed innermost isCode
        (clear top rest instr code innermost isCode) ran
  | jump target =>
      obtain ⟨top, rest, block, innermost, among, equal⟩ := execute_jump ran
      obtain ⟨fn, legal⟩ := invariant.legal top (innermost ▸ List.mem_cons_self)
      rw [legal.blocks] at among
      rw [equal]
      refine invariant.withTop innermost ⟨fn, { legal with code := ?_, terminator := ?_ }⟩
        rfl rfl rfl rfl rfl
      · exact fun slot inside => List.mem_flatMap.mpr ⟨block, among, inside⟩
      · exact (framed fn legal.listed).restores block among
  | fnRet =>
      obtain ⟨top, rest, restores, innermost, -, equal⟩ := execute_fnRet ran
      have fewer : StackInvariant program ⟨m.stackSize, returned (top :: rest), m.pushed⟩ := by
        apply invariant.suffix
        rw [innermost]
        exact returned_suffix (top :: rest)
      rw [equal]
      split
      case isTrue =>
          obtain ⟨fn, legal⟩ := invariant.legal top (innermost ▸ List.mem_cons_self)
          have saved := invariant.saved
          rw [innermost] at saved
          exact fewer.setStackSize legal.savedSmall saved.frees
      case isFalse => exact fewer
  | leave suspends =>
      obtain ⟨top, rest, innermost, equal⟩ := execute_leave ran
      rw [equal]
      cases suspends with
      | true =>
          obtain ⟨fn, legal⟩ := invariant.legal top (innermost ▸ List.mem_cons_self)
          exact invariant.withTop innermost ⟨fn, { legal with }⟩ rfl rfl rfl rfl rfl
      | false => exact invariant.suffix (innermost ▸ List.suffix_cons top rest)
  | enter function continues => exact invariant.enter framed clear (execute_enter ran)
  | abandon =>
      obtain ⟨top, rest, innermost, equal⟩ := execute_abandon ran
      rw [equal]
      exact invariant.suffix (innermost ▸ List.suffix_cons top rest)

theorem StackInvariant.initial : StackInvariant program ⟨0, [], []⟩ where
  bounded := by decide
  legal := by simp
  ends := by simp [StackMachine.Frees]
  nested := List.Pairwise.nil
  below := by simp
  ordered := List.Pairwise.nil
  missed := by simp
  saved := trivial

theorem StackInvariant.of_reached (framed : ∀ fn ∈ program, Framed config fn)
    (reached : Transition.Reached (stackSystem config program)
      (StackMachine.Clear config program) m) : StackInvariant program m := by
  apply reached.invariant
  · intro s isInitial
    cases isInitial
    exact .initial
  · intro s event s' invariant clear ran
    exact invariant.execute framed clear ran

end Steps

end Shady
