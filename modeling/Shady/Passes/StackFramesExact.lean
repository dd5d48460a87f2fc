import Shady.Passes.StackFrameSteps

/-!
# When frames keep clear of what is on the stack

The address of a slot counts the stack size on entry twice, and a `StackAlloc` sets the
stack size to the end of the frame whatever has been pushed since. In runs in which nothing
has been pushed where a slot comes to lie, and no instruction takes the stack size below a
frame in use, the slots are apart from all else, and a function leaves the stack size that
it was entered with.
-/

set_option autoImplicit false

namespace Shady

section Claimed
variable (config : PointerModel)

/-- The memory of a slot. -/
def Activation.slotRegion (activation : Activation) (slot : StackSlot) : Region :=
  ⟨activation.slotAddress slot, (bytesOf config slot.type).getD 0⟩

/-- The memory that the slots are laid out in. -/
def Activation.frameRegion (activation : Activation) : Region :=
  ⟨activation.baseOnEntry + activation.sizeOnEntry, activation.frameSize⟩

structure FramesApart (m : StackMachine) : Prop where
  /-- From the other slots of the frame. -/
  own : ∀ activation ∈ m.activations, ∀ slot ∈ activation.executed, ∀ slot' ∈ activation.executed,
    slot.i ≠ slot'.i →
      (activation.slotRegion config slot).Apart (activation.slotRegion config slot')
  /-- From the frames of all callers. -/
  callers : m.activations.Pairwise fun callee caller => caller.executed ≠ [] →
    ∀ slot ∈ callee.executed, (callee.slotRegion config slot).Apart caller.frameRegion
  inside : ∀ activation ∈ m.activations, ∀ slot ∈ activation.executed,
    activation.frameRegion.address ≤ (activation.slotRegion config slot).address ∧
      (activation.slotRegion config slot).finish ≤ activation.frameRegion.finish
  /-- From what has been pushed and not been popped yet. -/
  pushed : ∀ activation ∈ m.activations, ∀ slot ∈ activation.executed, ∀ region ∈ m.pushed,
    (activation.slotRegion config slot).Apart region

end Claimed

section Steps
variable {config : PointerModel} {program : List LoweredFunction} {m : StackMachine}

/-! ## What follows of a state -/

theorem Activation.Legal.slotAddress {activation : Activation} {fn : LoweredFunction}
    (framed : Framed config fn) (smallFrame : SmallFrame config fn)
    (legal : activation.Legal program fn) {slot : StackSlot} (inside : slot ∈ activation.executed) :
    activation.slotRegion config slot =
        ⟨2 * activation.sizeOnEntry + slot.offset, (extent config slot.type).size⟩ ∧
      slot.offset + (extent config slot.type).size ≤ activation.frameSize := by
  have isSlot := framed.slots slot (legal.executed slot inside)
  have within := isSlot.within smallFrame.1
  obtain ⟨layout, found, size⟩ := framed.frame
  have whole := getMemLayout_eq config _ layout smallFrame.1 found
  have frameSize : activation.frameSize = (extent config (.record fn.members)).size := by
    rw [legal.frameSize, size, whole]
    exact stackPtrT_eq smallFrame.2
  have small := legal.small (List.ne_nil_of_mem inside)
  rw [Activation.finish] at small
  constructor
  · rw [Activation.slotRegion, Activation.slotAddress, isSlot.bytes smallFrame.1, Option.getD_some,
      stackPtrT_eq (show slot.offset < 2 ^ 32 by omega),
      stackPtrT_eq (show activation.sizeOnEntry + slot.offset < 2 ^ 32 by omega), legal.base]
    congr 1
    omega
  · omega

theorem StackInvariant.framesApart (framed : ∀ fn ∈ program, Framed config fn)
    (small : ∀ fn ∈ program, SmallFrame config fn) (invariant : StackInvariant program m) :
    FramesApart config m := by
  have placed : ∀ activation ∈ m.activations, ∀ slot ∈ activation.executed,
      activation.slotRegion config slot =
          ⟨2 * activation.sizeOnEntry + slot.offset, (extent config slot.type).size⟩ ∧
        slot.offset + (extent config slot.type).size ≤ activation.frameSize := by
    intro activation among slot inside
    obtain ⟨fn, legal⟩ := invariant.legal activation among
    exact legal.slotAddress (framed fn legal.listed) (small fn legal.listed) inside
  have base : ∀ activation ∈ m.activations,
      activation.frameRegion = ⟨2 * activation.sizeOnEntry, activation.frameSize⟩ := by
    intro activation among
    obtain ⟨fn, legal⟩ := invariant.legal activation among
    rw [Activation.frameRegion, legal.base, Nat.two_mul]
  constructor
  case own =>
      intro activation among slot inside slot' inside' different
      obtain ⟨fn, legal⟩ := invariant.legal activation among
      have isSlot := (framed fn legal.listed).slots slot (legal.executed slot inside)
      have isSlot' := (framed fn legal.listed).slots slot' (legal.executed slot' inside')
      have fits := (small fn legal.listed).1
      rw [(placed activation among slot inside).1, (placed activation among slot' inside').1]
      intro byte lower upper lower'
      simp only [Region.finish] at *
      cases Nat.lt_or_gt_of_ne different with
      | inl less =>
          have := isSlot.ordered isSlot' fits less
          omega
      | inr greater =>
          have := isSlot'.ordered isSlot fits greater
          omega
  case callers =>
      apply List.Pairwise.imp_of_mem _ invariant.nested
      intro callee caller among among' nested used slot inside
      rw [(placed callee among slot inside).1, base caller among']
      intro byte lower upper lower'
      have entered := nested used
      simp only [Activation.finish, Region.finish] at *
      omega
  case inside =>
      intro activation among slot inside
      obtain ⟨region, within⟩ := placed activation among slot inside
      rw [region, base activation among]
      simp only [Region.finish]
      omega
  case pushed =>
      intro activation among slot inside region pushed
      have missed := invariant.missed region pushed activation among (List.ne_nil_of_mem inside)
      obtain ⟨is, within⟩ := placed activation among slot inside
      rw [is]
      intro byte lower upper lower'
      simp only [Region.finish] at *
      omega

/-! ## Returns -/

/-- What stays the same of an execution for as long as it lasts. -/
def Activation.key (activation : Activation) : Nat × Bool := (activation.saved, activation.continues)

/-- The executions from the outermost on. -/
def StackMachine.keys (m : StackMachine) : List (Nat × Bool) :=
  (m.activations.map Activation.key).reverse

theorem keys_length (m : StackMachine) : m.keys.length = m.activations.length := by
  simp [StackMachine.keys]

theorem keys_of_suffix {m' : StackMachine} (isSuffix : m'.activations <:+ m.activations) :
    m'.keys <+: m.keys := List.reverse_prefix.mpr (isSuffix.map _)

theorem keys_withTop {m' : StackMachine} {top top' : Activation} {rest : List Activation}
    (innermost : m.activations = top :: rest) (innermost' : m'.activations = top' :: rest)
    (same : top'.key = top.key) : m.keys <+: m'.keys := by
  rw [StackMachine.keys, StackMachine.keys, innermost, innermost', List.map_cons, List.map_cons, same]

theorem keys_of_enter {function : Nat} {continues : Bool} {m' : StackMachine}
    (entered : m.enter config program function continues = some m') : m.keys <+: m'.keys := by
  obtain ⟨fn, block, sizes, saved, -, -, -, -, equal⟩ := enter_spec entered
  rw [equal]
  exact keys_of_suffix (List.suffix_cons _ _)

/-- A step starts executions or ends some, and leaves the others. -/
theorem keys_of_execute {event : StackEvent} {m' : StackMachine}
    (ran : m.execute config program event = some m') : m.keys <+: m'.keys ∨ m'.keys <+: m.keys := by
  cases event with
  | instr value =>
      obtain ⟨top, rest, instr, code, innermost, isCode, ran⟩ := execute_instr ran
      have same : ∀ m' : StackMachine,
          m'.activations = { top with code := code } :: rest → m.keys <+: m'.keys :=
        fun m' innermost' => keys_withTop innermost innermost' rfl
      left
      cases instr with
      | stackAlloc slot =>
          cases ran
          exact keys_withTop innermost rfl rfl
      | pushStack type =>
          obtain ⟨size, -, equal⟩ := Option.map_eq_some_iff.mp ran
          rw [← equal]
          exact same _ rfl
      | popStack type =>
          obtain ⟨size, -, equal⟩ := Option.map_eq_some_iff.mp ran
          rw [← equal]
          exact same _ rfl
      | setStackSize =>
          cases ran
          exact same _ rfl
      | call callee =>
          exact (same _ rfl).trans (keys_of_enter ran)
  | jump target =>
      obtain ⟨top, rest, block, innermost, -, equal⟩ := execute_jump ran
      left
      rw [equal]
      exact keys_withTop innermost rfl rfl
  | fnRet =>
      obtain ⟨top, rest, restores, innermost, -, equal⟩ := execute_fnRet ran
      right
      apply keys_of_suffix
      rw [equal, innermost]
      split <;> exact returned_suffix (top :: rest)
  | leave suspends =>
      obtain ⟨top, rest, innermost, equal⟩ := execute_leave ran
      cases suspends with
      | true =>
          left
          rw [equal]
          exact keys_withTop innermost rfl rfl
      | false =>
          right
          rw [equal]
          exact keys_of_suffix (innermost ▸ List.suffix_cons top rest)
  | enter function continues => exact Or.inl (keys_of_enter (execute_enter ran))
  | abandon =>
      obtain ⟨top, rest, innermost, equal⟩ := execute_abandon ran
      right
      rw [equal]
      exact keys_of_suffix (innermost ▸ List.suffix_cons top rest)

/-- A run in which each step goes right and more than `depth` executions are not over. -/
inductive RunsAbove (config : PointerModel) (program : List LoweredFunction) (depth : Nat) :
    StackMachine → StackMachine → Prop
  | start (m : StackMachine) (deep : depth < m.activations.length) : RunsAbove config program depth m m
  | next {m m' m'' : StackMachine} {event : StackEvent} (before : RunsAbove config program depth m m')
      (clear : m'.Clear config program event) (ran : m'.execute config program event = some m'')
      (deep : depth < m''.activations.length) : RunsAbove config program depth m m''

theorem RunsAbove.deep {depth : Nat} {m' : StackMachine}
    (run : RunsAbove config program depth m m') : depth < m'.activations.length := by
  cases run with
  | start deep => exact deep
  | next before clear ran deep => exact deep

theorem getElem?_eq_of_extends {α : Type} {first second : List α} {i : Nat} (isPrefix : first <+: second)
    (inside : i < first.length) : second[i]? = first[i]? := by
  obtain ⟨more, equal⟩ := isPrefix
  rw [← equal, List.getElem?_append_left inside]

theorem RunsAbove.key {depth : Nat} {m' : StackMachine}
    (run : RunsAbove config program depth m m') : m'.keys[depth]? = m.keys[depth]? := by
  induction run with
  | start deep => rfl
  | next before clear ran deep ih =>
      rw [← ih]
      cases keys_of_execute ran with
      | inl more => exact getElem?_eq_of_extends more (by rw [keys_length]; exact before.deep)
      | inr fewer => exact (getElem?_eq_of_extends fewer (by rw [keys_length]; exact deep)).symm

theorem RunsAbove.reached {depth : Nat} {m' : StackMachine}
    (run : RunsAbove config program depth m m')
    (reached : Transition.Reached (stackSystem config program)
      (StackMachine.Clear config program) m) :
    Transition.Reached (stackSystem config program) (StackMachine.Clear config program) m' := by
  induction run with
  | start deep => exact reached
  | next before clear ran deep ih => exact ih.next clear ran

/-- A tail has got back what its function saved. -/
theorem SavedSizes.returns {top : Activation} {rest : List Activation} {saved : Nat}
    (sizes : SavedSizes (top :: rest))
    (key : ((top :: rest).map Activation.key).reverse[(returned (top :: rest)).length]? =
      some (saved, false)) : top.saved = saved := by
  induction rest generalizing top with
  | nil =>
      rw [returned] at key
      split at key
      case isTrue continues => simp_all [returned, Activation.key]
      case isFalse starts => simp_all [Activation.key]
  | cons next rest ih =>
      rw [returned] at key
      split at key
      case isTrue continues =>
          have same := sizes.2
          rw [if_pos continues, List.head?_cons, Option.map_some, Option.some.injEq] at same
          rw [← same]
          apply ih sizes.1
          have shorter : (returned (next :: rest)).length < (next :: rest).length := by
            rw [returned]
            have below := (returned_suffix rest).length_le
            rw [List.length_cons]
            split <;> omega
          rw [List.map_cons, List.reverse_cons, List.getElem?_append_left (by simpa using shorter)]
            at key
          exact key
      case isFalse starts =>
          simp only [List.map_cons, List.reverse_cons] at key
          rw [List.getElem?_append_right (by simp)] at key
          simp [Activation.key] at key
          exact key.1

theorem enter_key {function : Nat} {m' : StackMachine}
    (entered : m.enter config program function false = some m') :
    m'.activations.head?.map Activation.key = some (m'.stackSize, false) := by
  obtain ⟨fn, block, sizes, saved, -, -, -, kept, equal⟩ := enter_spec entered
  have same : (m.popParams sizes).stackSize = saved := Option.some.inj kept
  rw [equal, List.head?_cons, Option.map_some, Activation.key, same]

/-- Only the start of a function makes one execution more. -/
theorem execute_key {event : StackEvent} {m' : StackMachine}
    (ran : m.execute config program event = some m')
    (deeper : m'.activations.length = m.activations.length + 1)
    (function : m'.activations.head?.map Activation.continues = some false) :
    m'.activations.head?.map Activation.key = some (m'.stackSize, false) := by
  cases event with
  | instr value =>
      obtain ⟨top, rest, instr, code, innermost, isCode, ran⟩ := execute_instr ran
      rw [innermost] at deeper
      cases instr with
      | stackAlloc slot =>
          cases ran
          simp at deeper
      | pushStack type =>
          obtain ⟨size, -, equal⟩ := Option.map_eq_some_iff.mp ran
          rw [← equal] at deeper
          simp [StackMachine.push] at deeper
      | popStack type =>
          obtain ⟨size, -, equal⟩ := Option.map_eq_some_iff.mp ran
          rw [← equal] at deeper
          simp [StackMachine.pop] at deeper
      | setStackSize =>
          cases ran
          simp [StackMachine.setStackSize] at deeper
      | call callee => exact enter_key ran
  | jump target =>
      obtain ⟨top, rest, block, innermost, -, equal⟩ := execute_jump ran
      rw [equal, innermost] at deeper
      simp at deeper
  | fnRet =>
      obtain ⟨top, rest, restores, innermost, -, equal⟩ := execute_fnRet ran
      have shorter := (returned_suffix (top :: rest)).length_le
      rw [equal, innermost] at deeper
      split at deeper <;> simp only [StackMachine.setStackSize] at deeper <;> omega
  | leave suspends =>
      obtain ⟨top, rest, innermost, equal⟩ := execute_leave ran
      rw [equal, innermost] at deeper
      cases suspends with
      | true => simp at deeper
      | false =>
          simp only [Bool.false_eq_true, if_false, List.length_cons] at deeper
          omega
  | enter callee continues =>
      have entered := execute_enter ran
      cases continues with
      | false => exact enter_key entered
      | true =>
          obtain ⟨fn, block, sizes, saved, -, -, -, -, equal⟩ := enter_spec entered
          rw [equal] at function
          cases function
  | abandon =>
      obtain ⟨top, rest, innermost, equal⟩ := execute_abandon ran
      rw [equal, innermost] at deeper
      simp only [List.length_cons] at deeper
      omega

/-- The size on return is the size that the execution started with. -/
theorem fnRet_stackSize (framed : ∀ fn ∈ program, Framed config fn) {m m₁ m₂ m₃ : StackMachine}
    {event : StackEvent}
    (reached : Transition.Reached (stackSystem config program)
      (StackMachine.Clear config program) m)
    (clear : m.Clear config program event) (entered : m.execute config program event = some m₁)
    (deeper : m₁.activations.length = m.activations.length + 1)
    (function : m₁.activations.head?.map Activation.continues = some false)
    (run : RunsAbove config program m.activations.length m₁ m₂)
    (returns : m₂.execute config program .fnRet = some m₃)
    (ended : m₃.activations.length = m.activations.length) : m₃.stackSize = m₁.stackSize := by
  have reached₁ : Transition.Reached (stackSystem config program)
      (StackMachine.Clear config program) m₁ := reached.next clear entered
  have invariant := StackInvariant.of_reached framed (run.reached reached₁)
  obtain ⟨top, rest, restores, innermost, terminator, equal⟩ := execute_fnRet returns
  obtain ⟨fn, legal⟩ := invariant.legal top (innermost ▸ List.mem_cons_self)
  have restored : restores = true := by
    cases restores with
    | true => rfl
    | false => exact absurd terminator legal.terminator
  rw [restored, if_pos rfl] at equal
  have saved : m₁.keys[m.activations.length]? = some (m₁.stackSize, false) := by
    have key := execute_key entered deeper function
    cases started : m₁.activations with
    | nil => simp [started] at deeper
    | cons first others =>
        rw [started] at key deeper
        rw [List.head?_cons, Option.map_some] at key
        rw [List.length_cons, Nat.add_right_cancel_iff] at deeper
        rw [StackMachine.keys, started, List.map_cons, List.reverse_cons, ← deeper,
          List.getElem?_append_right (by simp)]
        simpa using key
  have sizes := invariant.saved
  rw [innermost] at sizes
  have depth : (returned (top :: rest)).length = m.activations.length := by
    rw [← ended, equal]
    rfl
  rw [equal]
  show top.saved = _
  apply sizes.returns
  rw [depth, ← saved, ← run.key, StackMachine.keys, innermost]

end Steps

/-- In runs whose steps go right the slots are apart from all else on the stack, and a
function returns with the stack size that it started with. -/
theorem framesApart_of_clear {config : PointerModel} {functions : List StackFunction}
    {program : List LoweredFunction} (lowered : lowerFrames config functions = some program)
    (small : ∀ fn ∈ program, SmallFrame config fn) :
    (∀ fn ∈ program, ((slotsOf fn.blocks).map StackSlot.i).Nodup) ∧
    (∀ m, Transition.Reached (stackSystem config program) (StackMachine.Clear config program) m →
      FramesApart config m) ∧
    (∀ m m₁ m₂ m₃ event,
      Transition.Reached (stackSystem config program) (StackMachine.Clear config program) m →
      m.Clear config program event → m.execute config program event = some m₁ →
      m₁.activations.length = m.activations.length + 1 →
      m₁.activations.head?.map Activation.continues = some false →
      RunsAbove config program m.activations.length m₁ m₂ →
      m₂.execute config program .fnRet = some m₃ →
      m₃.activations.length = m.activations.length → m₃.stackSize = m₁.stackSize) := by
  have framed := framed_of_program lowered
  refine ⟨fun fn inside => (framed fn inside).numbered, ?_, ?_⟩
  · intro m reached
    exact (StackInvariant.of_reached framed reached).framesApart framed small
  · intro m m₁ m₂ m₃ event reached clear entered deeper function run returns ended
    exact fnRet_stackSize framed reached clear entered deeper function run returns ended

/-! ## Runs -/

namespace FrameSample

def config : PointerModel := ⟨.intTy64, .intTy32⟩

def word : DataType := .int .intTy32 false

def function (instrs : List (StackInstr DataType)) : StackFunction := ⟨[], [⟨instrs, .fnRet false⟩]⟩

/-- A value is spilled before there is a slot. -/
def spilling : List StackFunction := [function [.pushStack word, .stackAlloc word]]

/-- The callee is entered above a value, and pushes one of its own. -/
def nested : List StackFunction :=
  [function [.pushStack word, .call 1], function [.stackAlloc word, .pushStack word]]

/-- The callee has a slot and no more. -/
def leaf : List StackFunction :=
  [function [.stackAlloc word, .pushStack word, .call 1], function [.stackAlloc word]]

def lowered (instrs : List (StackInstr StackSlot)) : LoweredFunction :=
  ⟨[], [⟨instrs, .fnRet true⟩], [word], 4⟩

def leafLowered : List LoweredFunction :=
  [lowered [.stackAlloc ⟨0, 0, word⟩, .pushStack word, .call 1],
    lowered [.stackAlloc ⟨0, 0, word⟩]]

theorem leafLowered_eq : lowerFrames config leaf = some leafLowered := rfl

theorem leafLowered_small : ∀ fn ∈ leafLowered, SmallFrame config fn := by
  have frame : (extent config (.record [word])).size = 4 := by decide
  have small : ∀ instrs, SmallFrame config (lowered instrs) := fun instrs =>
    ⟨⟨⟨trivial, trivial⟩, Nat.lt_of_le_of_lt (Nat.le_of_eq frame) (by decide)⟩,
      Nat.lt_of_le_of_lt (Nat.le_of_eq frame) (by decide)⟩
  intro fn inside
  simp only [leafLowered, List.mem_cons, List.not_mem_nil, or_false] at inside
  cases inside with
  | inl first => exact first ▸ small _
  | inr second => exact second ▸ small _

end FrameSample

theorem reached_instr {config : PointerModel} {program : List LoweredFunction}
    {m m' : StackMachine} {top : Activation} {rest : List Activation} {instr : StackInstr StackSlot}
    {code : List (StackInstr StackSlot)} (value : Nat)
    (reached : Transition.Reached (stackSystem config program)
      (StackMachine.Clear config program) m)
    (innermost : m.activations = top :: rest) (isCode : top.code = instr :: code)
    (clear : m.ClearInstr config program top value instr)
    (ran : m.execute config program (.instr value) = some m') :
    Transition.Reached (stackSystem config program) (StackMachine.Clear config program) m' := by
  have permitted : m.Clear config program (.instr value) := by
    intro top' rest' instr' code' innermost' isCode'
    rw [innermost, List.cons.injEq] at innermost'
    rw [← innermost'.1, isCode, List.cons.injEq] at isCode'
    rw [← innermost'.1, ← isCode'.1]
    exact clear
  exact reached.next permitted ran

open FrameSample in
/-- The callee's slot is clear of the slot and the value below it. -/
theorem leaf_framesApart : ∃ m, Transition.Reached (stackSystem config leafLowered)
      (StackMachine.Clear config leafLowered) m ∧ FramesApart config m ∧
    m.activations.map (fun a => a.executed.map a.slotAddress) = [[16], [0]] ∧
    m.pushed.map Region.address = [4] := by
  have result := framesApart_of_clear leafLowered_eq leafLowered_small
  have noParams : ∀ (m : StackMachine) function, m.FindsParams config leafLowered function := by
    intro m function fn sizes listed measured
    have inside := List.mem_of_getElem? listed
    have params : fn.params = [] := by
      simp only [leafLowered, List.mem_cons, List.not_mem_nil, or_false] at inside
      cases inside with
      | inl first => rw [first]; rfl
      | inr second => rw [second]; rfl
    rw [params] at measured
    cases measured
    trivial
  have start : Transition.Reached (stackSystem config leafLowered)
      (StackMachine.Clear config leafLowered) ⟨0, [], []⟩ := .start rfl
  have permitted : StackMachine.Clear config leafLowered ⟨0, [], []⟩ (.enter 0 false) :=
    noParams _ 0
  have entered := start.next permitted rfl
  have slot := reached_instr 0 entered rfl rfl ⟨Or.inl (by decide), by decide⟩ rfl
  have pushed := reached_instr 0 slot rfl rfl (by
    intro size measured
    cases measured
    refine ⟨by decide, ?_⟩
    intro activation inside _
    cases List.mem_singleton.mp inside
    exact Or.inr (by decide)) rfl
  have called := reached_instr 0 pushed rfl rfl (noParams _ 1) rfl
  have slot' := reached_instr 0 called rfl rfl ⟨Or.inl (by decide), by decide⟩ rfl
  exact ⟨_, slot', result.2.1 _ slot', rfl, rfl⟩

theorem reached_anyStep {config : PointerModel} {program : List LoweredFunction}
    (events : List StackEvent) {m : StackMachine}
    (ran : Transition.run (stackSystem config program) (fun _ _ => true) events ⟨0, [], []⟩ =
      some m) : Transition.Reached (stackSystem config program) Transition.anyStep m :=
  Transition.Reached.of_run (fun _ _ _ => trivial) events (.start rfl) ran

open FrameSample in
/-- The spilled word lies in the slot, and so does the word that the callee pushes. -/
theorem pushed_value_in_slot :
    (∃ program m, lowerFrames config spilling = some program ∧
      Transition.Reached (stackSystem config program) Transition.anyStep m ∧
      ¬ FramesApart config m) ∧
    ∃ program m, lowerFrames config nested = some program ∧
      Transition.Reached (stackSystem config program) Transition.anyStep m ∧
      ¬ FramesApart config m := by
  constructor
  · refine ⟨_, _, rfl, reached_anyStep [.enter 0 false, .instr 0, .instr 0] rfl, fun apart => ?_⟩
    have clear := apart.pushed _ List.mem_cons_self _ List.mem_cons_self _ List.mem_cons_self
    exact absurd (clear 0 (by decide) (by decide) (by decide)) (by decide)
  · refine ⟨_, _, rfl,
      reached_anyStep [.enter 0 false, .instr 0, .instr 0, .instr 0, .instr 0] rfl, fun apart => ?_⟩
    have clear := apart.pushed _ List.mem_cons_self _ List.mem_cons_self _ List.mem_cons_self
    exact absurd (clear 8 (by decide) (by decide) (by decide)) (by decide)

end Shady
