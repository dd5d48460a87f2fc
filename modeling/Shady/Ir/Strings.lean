import Shady.Library.UniqueTable

/-!
# InternedStrings strings

A string is looked up by what the buffer of the caller holds up to its terminator, and
copied up to the size that was asked for. The two are the same when the buffer ends there.
A longer buffer finds a longer string, or misses the string that was asked for.
-/

set_option autoImplicit false

namespace Shady

open UniqueTable (Table)

/-! ## Buffers -/

/-- What a buffer holds before its terminator. Without one, reading it leaves the buffer. -/
def cString : List UInt8 → Option (List UInt8)
  | [] => none
  | byte :: rest => if byte = 0 then some [] else (cString rest).map (byte :: ·)

/-- The bytes that `strncpy` writes; it reads no further than a terminator. -/
def strncpy : Nat → List UInt8 → Option (List UInt8)
  | 0, _ => some []
  | _ + 1, [] => none
  | size + 1, byte :: rest =>
      if byte = 0 then some (List.replicate (size + 1) 0) else (strncpy size rest).map (byte :: ·)

/-- Bytes that were allocated in the arena, and those at their start that were written. -/
structure StringAllocation where
  room : Nat
  written : List UInt8

/-- `shd_hash_string` and `shd_compare_string` see a string up to its terminator. -/
def StringAllocation.text (allocation : StringAllocation) : Option (List UInt8) :=
  cString allocation.written

/-- The strings of an arena; the entries are its `string_set`. -/
abbrev StringArena : Type := Table StringAllocation

/-! ## Interning -/

/-- `string_impl`. It is `none` where the buffer is left or the allocation is too small. -/
def stringImpl (arena : StringArena) (size : Nat) :
    Option (List UInt8) → Option (Option Nat × StringArena)
  | none => some (none, arena)
  | some zeroTerminated =>
      (cString zeroTerminated).bind fun ptr =>
        match arena.find StringAllocation.text ptr with
        | some found => some (some found, arena)
        | none =>
            (strncpy size zeroTerminated).bind fun copied =>
              let newStr : StringAllocation := ⟨ptr.length + 1, copied ++ [0]⟩
              let allocated : StringArena := ⟨arena.contents ++ [newStr], arena.entries⟩
              if size < newStr.room then
                some (some arena.contents.length,
                  allocated.put StringAllocation.text arena.contents.length)
              else none

/-- `shd_string_sized`, with the assertion that there is no terminator before the size. -/
def shdStringSized (arena : StringArena) (size : Nat) (str : List UInt8) :
    Option (Option Nat × StringArena) :=
  (strncpy size str).bind fun newStr =>
    if (cString (newStr ++ [0])).map List.length = some size then stringImpl arena size (some str)
    else none

/-- `shd_string`. -/
def shdString (arena : StringArena) : Option (List UInt8) → Option (Option Nat × StringArena)
  | none => some (none, arena)
  | some str => (cString str).bind fun whole => stringImpl arena whole.length (some str)

/-! ## Requests -/

/-- The bytes that are asked for and what follows them in the buffer. -/
structure StringRequest where
  text : List UInt8
  after : List UInt8
  sized : Bool
  nonzero : ∀ byte ∈ text, byte ≠ 0
  terminated : sized = false → after.head? = some 0

namespace StringRequest

def buffer (request : StringRequest) : List UInt8 := request.text ++ request.after

def serve (request : StringRequest) (arena : StringArena) : Option (Option Nat × StringArena) :=
  if request.sized then shdStringSized arena request.text.length request.buffer
  else shdString arena (some request.buffer)

/-- Each request with the pointer that it returns. -/
def serveAll : List StringRequest → StringArena →
    Option (List (StringRequest × Option Nat) × StringArena)
  | [], arena => some ([], arena)
  | request :: rest, arena =>
      (request.serve arena).bind fun answer =>
        (serveAll rest answer.2).map fun run => ((request, answer.1) :: run.1, run.2)

/-- The buffer ends where the requested bytes do, or neither these nor the longer string that
    it holds were asked for before. -/
def Unmistaken (earlier : List StringRequest) (request : StringRequest) : Prop :=
  request.after.head? = some 0 ∨
    ∃ more, cString request.after = some more ∧
      ∀ e ∈ earlier, e.text ≠ request.text ∧ e.text ≠ request.text ++ more

end StringRequest

/-- A pointer to exactly these bytes and a terminator, with room for them. -/
def StringArena.Holds (arena : StringArena) (text : List UInt8) (pointer : Option Nat) : Prop :=
  ∃ p allocation, pointer = some p ∧ arena.contents[p]? = some allocation ∧
    allocation.text = some text ∧ text.length < allocation.room

/-- The law of interning. -/
structure InternedStrings (served : List (StringRequest × Option Nat)) (arena : StringArena) : Prop where
  held : ∀ s ∈ served, arena.Holds s.1.text s.2
  canonical : ∀ s ∈ served, ∀ s' ∈ served, s.2 = s'.2 ↔ s.1.text = s'.1.text

/-! ## What a buffer holds -/

section Buffers
variable {text after : List UInt8}

theorem cString_append (after : List UInt8) (nonzero : ∀ byte ∈ text, byte ≠ 0) :
    cString (text ++ after) = (cString after).map (text ++ ·) := by
  induction text with
  | nil => simp
  | cons byte rest ih =>
      have first : byte ≠ 0 := nonzero byte List.mem_cons_self
      have others := ih fun b mem => nonzero b (List.mem_cons_of_mem _ mem)
      rw [List.cons_append, cString, if_neg first, others, Option.map_map]
      rfl

theorem cString_terminated (nonzero : ∀ byte ∈ text, byte ≠ 0) : cString (text ++ [0]) = some text := by
  rw [cString_append _ nonzero]
  simp [cString]

theorem cString_eq_nil_iff : cString after = some [] ↔ after.head? = some 0 := by
  cases after with
  | nil => exact ⟨nofun, nofun⟩
  | cons byte rest =>
      rw [cString, List.head?_cons]
      by_cases zero : byte = 0
      · rw [if_pos zero, zero]
        exact ⟨fun _ => rfl, fun _ => rfl⟩
      · rw [if_neg zero]
        constructor
        · intro empty
          obtain ⟨more, -, absurdity⟩ := Option.map_eq_some_iff.mp empty
          cases absurdity
        · intro same
          exact absurd (Option.some.inj same) zero

theorem strncpy_append (after : List UInt8) (nonzero : ∀ byte ∈ text, byte ≠ 0) :
    strncpy text.length (text ++ after) = some text := by
  induction text with
  | nil => rfl
  | cons byte rest ih =>
      have first : byte ≠ 0 := nonzero byte List.mem_cons_self
      have others := ih fun b mem => nonzero b (List.mem_cons_of_mem _ mem)
      rw [List.length_cons, List.cons_append, strncpy, if_neg first, others]
      rfl

end Buffers

/-! ## One request -/

section Steps
variable {arena : StringArena} {request : StringRequest}

/-- The arena after a string was not found. -/
def StringArena.stored (arena : StringArena) (text more : List UInt8) : StringArena :=
  Table.put StringAllocation.text
    ⟨arena.contents ++ [⟨(text ++ more).length + 1, text ++ [0]⟩], arena.entries⟩ arena.contents.length

theorem StringArena.stored_contents {text more : List UInt8} :
    (arena.stored text more).contents
      = arena.contents ++ [⟨(text ++ more).length + 1, text ++ [0]⟩] := by
  rw [stored, Table.put]
  split <;> rfl

/-- A request looks up all that its buffer holds, and stores what it asks for. -/
theorem StringRequest.serve_eq (request : StringRequest) (arena : StringArena) :
    request.serve arena = (cString request.after).bind fun more =>
      match arena.find StringAllocation.text (request.text ++ more) with
      | some found => some (some found, arena)
      | none => some (some arena.contents.length, arena.stored request.text more) := by
  have reads := cString_append request.after request.nonzero
  have copies := strncpy_append request.after request.nonzero
  have impl : stringImpl arena request.text.length (some request.buffer)
      = (cString request.after).bind fun more =>
        match arena.find StringAllocation.text (request.text ++ more) with
        | some found => some (some found, arena)
        | none => some (some arena.contents.length, arena.stored request.text more) := by
    rw [stringImpl, buffer, reads, copies, Option.bind_map]
    congr 1
    funext more
    have roomy : request.text.length < (request.text ++ more).length + 1 := by
      rw [List.length_append]
      omega
    simp only [Function.comp_apply, Option.bind_some, if_pos roomy]
    rfl
  rw [serve]
  cases isSized : request.sized with
  | true =>
      have whole : (cString (request.text ++ [0])).map List.length = some request.text.length := by
        rw [cString_terminated request.nonzero]
        rfl
      rw [if_pos rfl, shdStringSized, buffer, copies, Option.bind_some, if_pos whole]
      exact impl
  | false =>
      have ends := cString_eq_nil_iff.mpr (request.terminated isSized)
      rw [if_neg Bool.false_ne_true, shdString, buffer, reads, ends, Option.map_some, Option.bind_some,
        List.append_nil, ← ends]
      exact impl

theorem StringRequest.serve_contents {answer : Option Nat × StringArena}
    (served : request.serve arena = some answer) : arena.contents <+: answer.2.contents := by
  rw [serve_eq] at served
  obtain ⟨more, -, answered⟩ := Option.bind_eq_some_iff.mp served
  split at answered
  · cases answered
    exact List.prefix_refl _
  · cases answered
    rw [StringArena.stored_contents]
    exact List.prefix_append _ _

theorem StringRequest.serveAll_contents : ∀ (requests : List StringRequest) (arena : StringArena)
    {run : List (StringRequest × Option Nat) × StringArena},
    serveAll requests arena = some run → arena.contents <+: run.2.contents := by
  intro requests
  induction requests with
  | nil =>
      intro arena run ran
      cases ran
      exact List.prefix_refl _
  | cons request rest ih =>
      intro arena run ran
      obtain ⟨answer, served, ran⟩ := Option.bind_eq_some_iff.mp ran
      obtain ⟨later, ranLater, same⟩ := Option.map_eq_some_iff.mp ran
      have others : answer.2.contents <+: later.2.contents := ih answer.2 ranLater
      rw [← same]
      exact (serve_contents served).trans others

end Steps

/-! ## Runs -/

/-- The strings of the arena are those that were asked for. -/
structure AskedStrings (done : List (StringRequest × Option Nat)) (arena : StringArena) : Prop where
  exact : arena.Exact StringAllocation.text
  roomy : ∀ (p : Nat) (allocation : StringAllocation) (text : List UInt8),
    arena.contents[p]? = some allocation → allocation.text = some text →
      text.length < allocation.room
  answered : ∀ s ∈ done, ∃ p, s.2 = some p ∧ arena.keyAt StringAllocation.text p = some s.1.text
  asked : ∀ p text, arena.keyAt StringAllocation.text p = some text →
    ∃ s ∈ done, s.1.text = text ∧ s.2 = some p

section Runs
variable {done : List (StringRequest × Option Nat)} {arena : StringArena} {request : StringRequest}

theorem askedStrings_nil : AskedStrings [] (Table.empty : StringArena) where
  exact := UniqueTable.Table.exact_empty
  roomy p allocation text found := by cases found
  answered s mem := by cases mem
  asked p text found := by cases found

theorem AskedStrings.interned (answered : AskedStrings done arena) : InternedStrings done arena where
  held s mem := by
    obtain ⟨p, pointer, atP⟩ := answered.answered s mem
    obtain ⟨allocation, stored, text⟩ := Option.bind_eq_some_iff.mp atP
    exact ⟨p, allocation, pointer, stored, text, answered.roomy p allocation _ stored text⟩
  canonical s mem s' mem' := by
    obtain ⟨p, pointer, atP⟩ := answered.answered s mem
    obtain ⟨p', pointer', atP'⟩ := answered.answered s' mem'
    rw [pointer, pointer', Option.some.injEq]
    constructor
    · intro same
      rw [same, atP', Option.some.injEq] at atP
      exact atP.symm
    · intro same
      exact answered.exact.distinct p p' s'.1.text (same ▸ atP) atP'

/-- A string that was found had been asked for. -/
theorem AskedStrings.found (answered : AskedStrings done arena) {p : Nat}
    (found : arena.find StringAllocation.text request.text = some p) :
    AskedStrings (done ++ [(request, some p)]) arena where
  exact := answered.exact
  roomy := answered.roomy
  answered s mem := by
    rcases List.mem_append.mp mem with before | last
    · exact answered.answered s before
    · rw [List.mem_singleton.mp last]
      exact ⟨p, rfl, answered.exact.find_eq_some.mp found⟩
  asked q text atQ := by
    obtain ⟨s, mem, same⟩ := answered.asked q text atQ
    exact ⟨s, List.mem_append_left _ mem, same⟩

/-- A string that is stored for the first time. -/
theorem AskedStrings.stored (answered : AskedStrings done arena) {more : List UInt8}
    (fresh : arena.find StringAllocation.text request.text = none) :
    AskedStrings (done ++ [(request, some arena.contents.length)]) (arena.stored request.text more) := by
  have textEq : StringAllocation.text ⟨(request.text ++ more).length + 1, request.text ++ [0]⟩
      = some request.text := cString_terminated request.nonzero
  have table : arena.stored request.text more
      = arena.add ⟨(request.text ++ more).length + 1, request.text ++ [0]⟩ :=
    answered.exact.put_fresh textEq fresh
  rw [table]
  refine ⟨answered.exact.add ?_, ?_, ?_, ?_⟩
  · intro k isKey
    rw [textEq, Option.some.injEq] at isKey
    exact isKey ▸ fresh
  · intro p allocation text stored isText
    rcases List.mem_append.mp (List.mem_of_getElem? stored) with before | last
    · obtain ⟨q, atQ⟩ := List.mem_iff_getElem?.mp before
      exact answered.roomy q allocation text atQ isText
    · rw [List.mem_singleton.mp last, textEq, Option.some.injEq] at isText
      rw [List.mem_singleton.mp last, ← isText, List.length_append]
      exact Nat.lt_succ_of_le (Nat.le_add_right _ _)
  · intro s mem
    rcases List.mem_append.mp mem with before | last
    · obtain ⟨p, pointer, atP⟩ := answered.answered s before
      exact ⟨p, pointer, (Table.keyAt_add (Table.lt_of_keyAt atP)).trans atP⟩
    · rw [List.mem_singleton.mp last]
      exact ⟨_, rfl, Table.keyAt_add_last.trans textEq⟩
  · intro p text atP
    by_cases inside : p < arena.contents.length
    · rw [Table.keyAt_add inside] at atP
      obtain ⟨s, mem, same⟩ := answered.asked p text atP
      exact ⟨s, List.mem_append_left _ mem, same⟩
    · have below := Table.lt_of_keyAt atP
      rw [Table.add, List.length_append, List.length_singleton] at below
      have last : p = arena.contents.length := by omega
      rw [last, Table.keyAt_add_last, textEq, Option.some.injEq] at atP
      exact ⟨_, List.mem_append_right _ (List.mem_singleton_self _), atP, by rw [last]⟩

/-- A request that cannot be mistaken is answered as it should be. -/
theorem AskedStrings.step (answered : AskedStrings done arena)
    (unmistaken : request.Unmistaken (done.map Prod.fst)) :
    ∃ answer, request.serve arena = some answer ∧
      AskedStrings (done ++ [(request, answer.1)]) answer.2 := by
  rw [request.serve_eq]
  cases unmistaken with
  | inl ends =>
      rw [cString_eq_nil_iff.mpr ends, Option.bind_some, List.append_nil]
      cases found : arena.find StringAllocation.text request.text with
      | some p => exact ⟨_, rfl, answered.found found⟩
      | none => exact ⟨_, rfl, answered.stored found⟩
  | inr longer =>
      obtain ⟨more, holds, apart⟩ := longer
      have missing : ∀ text, (∀ s ∈ done, s.1.text ≠ text) →
          arena.find StringAllocation.text text = none := by
        intro text unasked
        rw [answered.exact.find_eq_none]
        intro p atP
        obtain ⟨s, mem, same, -⟩ := answered.asked p text atP
        exact unasked s mem same
      have noLonger := missing (request.text ++ more) fun s mem => (apart s.1 (List.mem_map_of_mem mem)).2
      have noText := missing request.text fun s mem => (apart s.1 (List.mem_map_of_mem mem)).1
      rw [holds, Option.bind_some, noLonger]
      exact ⟨_, rfl, answered.stored noText⟩

/-- A request that can be mistaken breaks the law. -/
theorem AskedStrings.broken (answered : AskedStrings done arena)
    (mistaken : ¬ request.Unmistaken (done.map Prod.fst)) {answer : Option Nat × StringArena}
    (served : request.serve arena = some answer) {later : List (StringRequest × Option Nat)}
    {last : StringArena} (keeps : answer.2.contents <+: last.contents) :
    ¬ InternedStrings (done ++ (request, answer.1) :: later) last := by
  intro interned
  rw [request.serve_eq] at served
  obtain ⟨more, holds, answers⟩ := Option.bind_eq_some_iff.mp served
  have here : (request, answer.1) ∈ done ++ (request, answer.1) :: later :=
    List.mem_append_right _ List.mem_cons_self
  have longer : more ≠ [] := by
    intro none
    rw [none] at holds
    exact mistaken (.inl (cString_eq_nil_iff.mp holds))
  cases found : arena.find StringAllocation.text (request.text ++ more) with
  | some p =>
      -- the longer string was asked for before, and is returned
      rw [found] at answers
      cases answers
      obtain ⟨allocation, stored, isLonger⟩ :=
        Option.bind_eq_some_iff.mp (answered.exact.find_eq_some.mp found)
      obtain ⟨q, other, pointer, stored', isText, -⟩ := interned.held _ here
      obtain ⟨rest, whole⟩ := keeps
      have inside : p < arena.contents.length := (List.getElem?_eq_some_iff.mp stored).1
      cases pointer
      rw [← whole, List.getElem?_append_left inside, stored] at stored'
      cases stored'
      rw [isLonger, Option.some.injEq] at isText
      exact longer (List.append_right_eq_self.mp isText)
  | none =>
      rw [found] at answers
      cases answers
      have again : ∃ s ∈ done, s.1.text = request.text := by
        by_contra unasked
        refine mistaken (.inr ⟨more, holds, fun e mem => ?_⟩)
        obtain ⟨s, inDone, rfl⟩ := List.mem_map.mp mem
        refine ⟨fun same => unasked ⟨s, inDone, same⟩, fun same => ?_⟩
        obtain ⟨p, -, atP⟩ := answered.answered s inDone
        exact (answered.exact.find_eq_none.mp found) p (atP.trans (congrArg _ same))
      obtain ⟨s, inDone, same⟩ := again
      obtain ⟨p, pointer, atP⟩ := answered.answered s inDone
      have equal := (interned.canonical s (List.mem_append_left _ inDone) _ here).mpr same
      rw [pointer, Option.some.injEq] at equal
      have inside := Table.lt_of_keyAt atP
      omega

theorem serveAll_interned_iff : ∀ (requests : List StringRequest)
    (done : List (StringRequest × Option Nat)) (arena : StringArena), AskedStrings done arena →
    ((∃ served last, StringRequest.serveAll requests arena = some (served, last) ∧
      InternedStrings (done ++ served) last) ↔
      ∀ earlier request later, requests = earlier ++ request :: later →
        request.Unmistaken (done.map Prod.fst ++ earlier)) := by
  intro requests
  induction requests with
  | nil =>
      intro done arena answered
      refine ⟨fun _ earlier request later split => ?_, fun _ => ⟨[], arena, rfl, ?_⟩⟩
      · exact absurd split.symm (List.append_ne_nil_of_right_ne_nil _ (List.cons_ne_nil _ _))
      · rw [List.append_nil]
        exact answered.interned
  | cons request rest ih =>
      intro done arena answered
      by_cases unmistaken : request.Unmistaken (done.map Prod.fst)
      · obtain ⟨answer, answers, answered'⟩ := answered.step unmistaken
        have others := ih (done ++ [(request, answer.1)]) answer.2 answered'
        rw [List.map_append, List.map_singleton] at others
        rw [StringRequest.serveAll, answers, Option.bind_some]
        constructor
        · intro run earlier request' later split
          obtain ⟨served, last, ran, interned⟩ := run
          obtain ⟨run, ran', same⟩ := Option.map_eq_some_iff.mp ran
          cases same
          rw [← List.singleton_append, ← List.append_assoc] at interned
          cases earlier with
          | nil =>
              cases split
              rw [List.append_nil]
              exact unmistaken
          | cons first earlier =>
              cases split
              have rest := others.mp ⟨run.1, run.2, ran', interned⟩ earlier request' later rfl
              rwa [List.append_assoc] at rest
        · intro all
          have tail := others.mpr fun earlier request' later split => by
            have one := all (request :: earlier) request' later (by rw [split]; rfl)
            rwa [List.append_assoc]
          obtain ⟨served, last, ran, interned⟩ := tail
          refine ⟨(request, answer.1) :: served, last, by rw [ran]; rfl, ?_⟩
          rw [← List.singleton_append, ← List.append_assoc]
          exact interned
      · constructor
        · intro run
          obtain ⟨served, last, ran, interned⟩ := run
          obtain ⟨answer, answers, ran⟩ := Option.bind_eq_some_iff.mp ran
          obtain ⟨run, ran', same⟩ := Option.map_eq_some_iff.mp ran
          cases same
          have keeps := StringRequest.serveAll_contents rest answer.2 ran'
          exact absurd interned (answered.broken unmistaken answers keeps)
        · intro all
          have first := all [] request rest rfl
          rw [List.append_nil] at first
          exact absurd first unmistaken

end Runs

/-- Interning is canonical over a sequence of requests, if and only if each buffer ends where
    the requested bytes do, or neither these nor the longer string were asked for before. -/
theorem strings_interned_iff (requests : List StringRequest) :
    (∃ served arena, StringRequest.serveAll requests Table.empty = some (served, arena) ∧
      InternedStrings served arena) ↔
      ∀ earlier request later, requests = earlier ++ request :: later →
        request.Unmistaken earlier :=
  serveAll_interned_iff requests [] Table.empty askedStrings_nil

/-- The string "a". -/
def wholeString : StringRequest :=
  ⟨[97], [0], false, List.forall_mem_singleton.mpr (by decide), fun _ => rfl⟩

/-- The first byte of the string "ab". -/
def shortenedString : StringRequest :=
  ⟨[97], [98, 0], true, List.forall_mem_singleton.mpr (by decide), nofun⟩

/-- Interning is not canonical for every sequence of requests. -/
theorem strings_not_interned : ¬ ∃ served arena,
    StringRequest.serveAll [wholeString, shortenedString] Table.empty = some (served, arena) ∧
      InternedStrings served arena := by
  intro run
  obtain ⟨served, arena, ran, interned⟩ := run
  have pointers : (StringRequest.serveAll [wholeString, shortenedString] Table.empty).map Prod.fst
      = some [(wholeString, some 0), (shortenedString, some 1)] := rfl
  rw [ran, Option.map_some, Option.some.injEq] at pointers
  change served = _ at pointers
  have first : (wholeString, some 0) ∈ served := by rw [pointers]; exact List.mem_cons_self
  have second : (shortenedString, some 1) ∈ served := by
    rw [pointers]
    exact List.mem_cons_of_mem _ (List.mem_singleton_self _)
  have same := (interned.canonical _ first _ second).mpr rfl
  cases same

end Shady
