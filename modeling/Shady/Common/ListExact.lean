import Shady.Library.Fallible
import Shady.Common.List

/-!
# Lists are sequences

Every operation does what it does to a sequence, inside the bytes of the list; but a removal also
moves the bytes behind the last element, which a full list does not have.
-/

set_option autoImplicit false

namespace Shady.Lists

open Buffer

variable {size : Nat} (fill : Nat → Byte) {list : CList} {seq : List (Element size)} {room : Room}

/-! ## What a list holds -/

def bytesOf (seq : List (Element size)) : List Byte := seq.flatMap Subtype.val

theorem bytesOf_append (first second : List (Element size)) :
    bytesOf (first ++ second) = bytesOf first ++ bytesOf second :=
  List.flatMap_append

theorem bytesOf_cons (element : Element size) (rest : List (Element size)) :
    bytesOf (element :: rest) = element.1 ++ bytesOf rest :=
  List.flatMap_cons

theorem bytesOf_singleton (element : Element size) : bytesOf [element] = element.1 := by
  rw [bytesOf_cons]
  exact List.append_nil _

theorem length_bytesOf (seq : List (Element size)) : (bytesOf seq).length = size * seq.length := by
  induction seq with
  | nil => rfl
  | cons element rest ih =>
      rw [bytesOf_cons, List.length_append, ih, element.2, List.length_cons, Nat.mul_succ]
      omega

/-- The list holds the sequence at the start of its bytes. -/
structure Represents (list : CList) (seq : List (Element size)) (room : Room) : Prop where
  elementSize : list.elementSize = size
  elementsCount : list.elementsCount = seq.length
  count : room.count = seq.length
  space : list.space = room.space
  positive : 0 < room.space
  fits : seq.length ≤ room.space
  length : list.alloc.length = size * room.space
  alloc : ∃ rest, list.alloc = bytesOf seq ++ rest

/-- The bytes of the first element are the first bytes. -/
theorem content_bytesOf (seq : List (Element size)) (rest : List Byte) :
    ((List.range seq.length).map fun i => ((bytesOf seq ++ rest).drop (size * i)).take size) =
      seq.map Subtype.val := by
  induction seq with
  | nil => rfl
  | cons element others ih =>
      rw [List.length_cons, List.range_succ_eq_map, List.map_cons, List.map_map, List.map_cons,
        bytesOf_cons, ← ih]
      congr 1
      · rw [Nat.mul_zero, List.drop_zero, List.append_assoc, List.take_left' element.2]
      · apply List.map_congr_left
        intro i _
        have skipped : size * (i + 1) = element.1.length + size * i := by
          rw [element.2, Nat.mul_succ, Nat.add_comm]
        rw [Function.comp_apply, List.append_assoc, Nat.succ_eq_add_one, skipped, ← List.drop_drop,
          List.drop_left]

theorem Represents.content (represents : Represents list seq room) :
    list.content = seq.map Subtype.val := by
  obtain ⟨rest, alloc⟩ := represents.alloc
  rw [CList.content, represents.elementSize, represents.elementsCount, alloc]
  exact content_bytesOf seq rest

theorem represents_new (size : Nat) :
    Represents (shdNewListImpl fill size) ([] : List (Element size)) ⟨0, 8⟩ where
  elementSize := rfl
  elementsCount := rfl
  count := rfl
  space := rfl
  positive := by decide
  fits := Nat.zero_le _
  length := by simp [shdNewListImpl, realloc]
  alloc := ⟨_, rfl⟩

/-! ## Growth -/

/-- A list that is full gets more room, and keeps its elements. -/
theorem Represents.grown (represents : Represents list seq room) :
    Represents (growIfFull fill list) seq
        ⟨room.count, if room.count = room.space then room.space * 2 else room.space⟩ ∧
      seq.length < if room.count = room.space then room.space * 2 else room.space := by
  have positive := represents.positive
  have fits := represents.fits
  have count := represents.count
  obtain ⟨rest, alloc⟩ := represents.alloc
  unfold growIfFull
  rw [represents.elementsCount, represents.space, ← count]
  by_cases full : room.count = room.space
  · rw [if_pos full, if_pos full]
    constructor
    · exact
        { elementSize := represents.elementSize
          elementsCount := represents.elementsCount
          count := count
          space := by rw [← represents.space]; rfl
          positive := by change 0 < room.space * 2; omega
          fits := by change seq.length ≤ room.space * 2; omega
          length := by
            have smaller : size * room.space ≤ size * (room.space * 2) :=
              Nat.mul_le_mul_left _ (by omega)
            simp only [growList, realloc, List.length_append, represents.length, List.length_map,
              List.length_range', represents.elementSize, represents.space]
            rw [Nat.mul_comm (room.space * 2) size]
            omega
          alloc := by
            refine ⟨rest ++ (List.range' list.alloc.length
              (list.space * 2 * list.elementSize - list.alloc.length)).map fill, ?_⟩
            rw [← List.append_assoc, ← alloc]
            rfl }
    · omega
  · rw [if_neg full, if_neg full]
    exact ⟨represents, by omega⟩

/-- The bytes behind the elements hold another element where there is room for it. -/
theorem Represents.behind (represents : Represents list seq room)
    (roomy : size = 0 ∨ seq.length < room.space) :
    ∃ old rest, list.alloc = bytesOf seq ++ (old ++ rest) ∧ old.length = size := by
  obtain ⟨rest, alloc⟩ := represents.alloc
  have length := represents.length
  rw [alloc, List.length_append, length_bytesOf] at length
  have enough : size ≤ rest.length := by
    cases roomy with
    | inl none => omega
    | inr less =>
        have inside : size * (seq.length + 1) ≤ size * room.space := Nat.mul_le_mul_left _ less
        rw [Nat.mul_succ] at inside
        omega
  refine ⟨rest.take size, rest.drop size, ?_, ?_⟩
  · rw [List.take_append_drop, alloc]
  · rw [List.length_take]
    omega

/-- The list with other bytes and another number of elements. -/
theorem Represents.changed (represents : Represents list seq room) {alloc : List Byte}
    {count : Nat} (seq' : List (Element size)) (counted : count = seq'.length)
    (fits : seq'.length ≤ room.space) (same : alloc.length = list.alloc.length)
    (holds : ∃ rest, alloc = bytesOf seq' ++ rest) :
    Represents { list with alloc := alloc, elementsCount := count } seq' ⟨count, room.space⟩ where
  elementSize := represents.elementSize
  elementsCount := counted
  count := counted
  space := represents.space
  positive := represents.positive
  fits := fits
  length := same.trans represents.length
  alloc := holds

theorem inBounds_bind {α β : Type} {o : Option α} {a : α} (found : o = some a)
    (f : α → Except ListError β) : (inBounds o >>= f) = f a := by
  rw [found]
  rfl

theorem inBounds_bind_none {α β : Type} {o : Option α} (outside : o = none)
    (f : α → Except ListError β) : (inBounds o >>= f) = .error .outOfBounds := by
  rw [outside]
  rfl

/-! ## Elements that are added -/

theorem read_element (element : Element size) : read element.1 0 size = some element.1 := by
  have whole := read_parts [] element.1 [] rfl element.2
  rwa [List.nil_append, List.append_nil] at whole

theorem append_represents (represents : Represents list seq room) (element : Element size) :
    ∃ list', shdListAppendImpl fill list element.1 = .ok list' ∧
      Represents list' (seq ++ [element]) room.withOneMore := by
  obtain ⟨grown, less⟩ := represents.grown fill
  obtain ⟨old, rest, alloc, oldSize⟩ := grown.behind (.inr less)
  have written := write_parts (bytesOf seq) old rest element.1 (length_bytesOf seq)
    (oldSize.trans element.2.symm)
  rw [List.append_assoc, ← alloc] at written
  have length : (bytesOf seq ++ element.1 ++ rest).length = (growIfFull fill list).alloc.length := by
    simp only [alloc, List.length_append, oldSize, element.2]
    omega
  have added : (growIfFull fill list).elementsCount + 1 = (seq ++ [element]).length := by
    rw [grown.elementsCount, List.length_append, List.length_singleton]
  have holds : bytesOf seq ++ element.1 ++ rest = bytesOf (seq ++ [element]) ++ rest := by
    rw [bytesOf_append, bytesOf_singleton]
  have after := grown.changed _ added (by rw [← added, grown.elementsCount]; exact less) length
    ⟨rest, holds⟩
  rw [grown.elementsCount, ← represents.count] at after
  refine ⟨_, ?_, after⟩
  simp only [shdListAppendImpl, grown.elementSize]
  rw [inBounds_bind (read_element element), grown.elementsCount, inBounds_bind written,
    represents.count]
  rfl

theorem insert_eq_take_drop {α : Type} {l : List α} {index : Nat} (a : α) (inside : index ≤ l.length) :
    l.insertIdx index a = l.take index ++ a :: l.drop index := by
  induction l generalizing index with
  | nil =>
      obtain rfl := Nat.le_zero.mp inside
      rfl
  | cons head rest ih =>
      cases index with
      | zero => rfl
      | succ index =>
          rw [List.insertIdx_succ_cons, ih (Nat.le_of_succ_le_succ inside)]
          rfl

theorem insert_represents (represents : Represents list seq room) {index : Nat}
    (inside : index ≤ seq.length) (element : Element size) :
    ∃ list', shdListInsertImpl fill list index element.1 = .ok list' ∧
      Represents list' (seq.insertIdx index element) room.withOneMore := by
  obtain ⟨grown, less⟩ := represents.grown fill
  obtain ⟨old, rest, alloc, oldSize⟩ := grown.behind (.inr less)
  have front : (bytesOf (seq.take index)).length = size * index := by
    rw [length_bytesOf, List.length_take, Nat.min_eq_left inside]
  have back : (bytesOf (seq.drop index)).length = size * (seq.length - index) := by
    rw [length_bytesOf, List.length_drop]
  have split : bytesOf seq = bytesOf (seq.take index) ++ bytesOf (seq.drop index) := by
    rw [← bytesOf_append, List.take_append_drop]
  have enough : size ≤ (old ++ rest).length := by
    rw [List.length_append]
    omega
  have above : (bytesOf (seq.take index)).length + size = size * (index + 1) := by
    rw [front, Nat.mul_succ]
  have moved := move_up _ _ _ enough above front back
  rw [← split, ← alloc, List.drop_left' oldSize, List.append_assoc _ (bytesOf _) rest] at moved
  have gap : ((bytesOf (seq.drop index) ++ (old ++ rest)).take size).length = element.1.length := by
    rw [element.2, List.length_take, List.length_append, List.length_append]
    omega
  have written := write_parts (bytesOf (seq.take index)) _ (bytesOf (seq.drop index) ++ rest) element.1
    front gap
  have length : (bytesOf (seq.take index) ++ element.1 ++ (bytesOf (seq.drop index) ++ rest)).length =
      (growIfFull fill list).alloc.length := by
    simp only [alloc, split, List.length_append, oldSize, element.2]
    omega
  have added : (growIfFull fill list).elementsCount + 1 = (seq.insertIdx index element).length := by
    rw [grown.elementsCount, List.length_insertIdx_of_le_length inside]
  have holds : bytesOf (seq.take index) ++ element.1 ++ (bytesOf (seq.drop index) ++ rest) =
      bytesOf (seq.insertIdx index element) ++ rest := by
    rw [insert_eq_take_drop element inside, bytesOf_append, bytesOf_cons]
    simp only [List.append_assoc]
  have after := grown.changed _ added (by rw [← added, grown.elementsCount]; exact less) length
    ⟨rest, holds⟩
  rw [grown.elementsCount, ← represents.count] at after
  refine ⟨_, ?_, after⟩
  simp only [shdListInsertImpl, grown.elementSize, represents.elementsCount, subSize, if_pos inside]
  rw [inBounds_bind moved, inBounds_bind (read_element element), inBounds_bind written,
    grown.elementsCount, represents.count]
  rfl

/-! ## Elements that are taken away -/

theorem pop_represents (represents : Represents list seq room) {last : Element size}
    (isLast : seq.getLast? = some last) :
    ∃ list', shdListPopImpl list = .ok (list', last.1) ∧
      Represents list' seq.dropLast { room with count := room.count - 1 } := by
  obtain ⟨rest, alloc⟩ := represents.alloc
  have split : seq = seq.dropLast ++ [last] := (List.dropLast_append_getLast? last isLast).symm
  have counted : seq.length = seq.dropLast.length + 1 := by
    rw [List.length_dropLast]
    have nonempty : seq.length ≠ 0 := by
      rw [split]
      simp
    omega
  have bytes : list.alloc = bytesOf seq.dropLast ++ last.1 ++ rest := by
    rw [alloc, split, bytesOf_append, bytesOf_singleton, List.dropLast_concat]
  have found : read list.alloc (seq.dropLast.length * size) size = some last.1 := by
    rw [bytes]
    exact read_parts _ _ _ (by rw [length_bytesOf, Nat.mul_comm]) last.2
  have after := represents.changed seq.dropLast rfl (by have fits := represents.fits; omega) rfl
    ⟨last.1 ++ rest, by rw [← List.append_assoc, bytes]⟩
  have left : list.elementsCount - 1 = seq.dropLast.length := by
    rw [represents.elementsCount, counted]
    rfl
  rw [← left] at after found
  rw [represents.count, ← represents.elementsCount]
  refine ⟨_, ?_, after⟩
  have nonempty : list.elementsCount ≠ 0 := by
    rw [represents.elementsCount, counted]
    omega
  simp only [shdListPopImpl, if_neg nonempty, represents.elementSize]
  rw [inBounds_bind found]
  rfl

theorem cut_at {index : Nat} {here : Element size} (isHere : seq[index]? = some here) :
    seq = seq.take index ++ here :: seq.drop (index + 1) := by
  obtain ⟨inside, is⟩ := List.getElem?_eq_some_iff.mp isHere
  rw [← is, List.getElem_cons_drop, List.take_append_drop]

/-- Where an element is taken out, and what the bytes are then. -/
theorem Represents.removes (represents : Represents list seq room) {index : Nat}
    {removed : Element size} (isRemoved : seq[index]? = some removed) (roomy : size = 0 ∨ seq.length < room.space) :
    ∃ old rest, old.length = size ∧
      read list.alloc (size * index) size = some removed.1 ∧
      move list.alloc (size * index) (size * (index + 1)) (size * (seq.length - index)) =
        some (bytesOf (seq.eraseIdx index) ++ old ++ rest) ∧
      (bytesOf (seq.eraseIdx index) ++ old ++ rest).length = list.alloc.length := by
  obtain ⟨inside, -⟩ := List.getElem?_eq_some_iff.mp isRemoved
  obtain ⟨old, rest, alloc, oldSize⟩ := represents.behind roomy
  have erased : seq.eraseIdx index = seq.take index ++ seq.drop (index + 1) :=
    List.eraseIdx_eq_take_drop_succ seq index
  have front : (bytesOf (seq.take index)).length = size * index := by
    rw [length_bytesOf, List.length_take, Nat.min_eq_left (Nat.le_of_lt inside)]
  have back : (bytesOf (seq.drop (index + 1)) ++ old).length = size * (seq.length - index) := by
    have counted : seq.length - index = seq.length - (index + 1) + 1 := by omega
    rw [List.length_append, length_bytesOf, List.length_drop, oldSize, counted, Nat.mul_succ]
  have split : list.alloc =
      bytesOf (seq.take index) ++ removed.1 ++ (bytesOf (seq.drop (index + 1)) ++ old) ++ rest := by
    rw [alloc]
    nth_rewrite 1 [cut_at isRemoved]
    rw [bytesOf_append, bytesOf_cons]
    simp only [List.append_assoc]
  have source : (bytesOf (seq.take index)).length + removed.1.length = size * (index + 1) := by
    rw [front, removed.2, Nat.mul_succ]
  have found := read_parts _ _ (bytesOf (seq.drop (index + 1)) ++ old ++ rest) front removed.2
  have moved := move_down _ _ _ rest front source back
  rw [← split] at moved
  rw [← List.append_assoc, ← split] at found
  rw [← List.append_assoc (bytesOf _) (bytesOf _) old, ← bytesOf_append, ← erased] at moved
  refine ⟨old, _, oldSize, found, moved, ?_⟩
  rw [erased, bytesOf_append, split]
  simp only [List.length_append, List.length_drop, removed.2]
  omega

/-- The list that an element was taken out of. -/
theorem Represents.erased (represents : Represents list seq room) {index : Nat}
    (inside : index < seq.length) {old rest : List Byte}
    (length : (bytesOf (seq.eraseIdx index) ++ old ++ rest).length = list.alloc.length) :
    Represents { list with
        alloc := bytesOf (seq.eraseIdx index) ++ old ++ rest
        elementsCount := list.elementsCount - 1 }
      (seq.eraseIdx index) { room with count := room.count - 1 } := by
  have counted : list.elementsCount - 1 = (seq.eraseIdx index).length := by
    rw [represents.elementsCount, List.length_eraseIdx_of_lt inside]
  have fits : (seq.eraseIdx index).length ≤ room.space := by
    rw [List.length_eraseIdx_of_lt inside]
    have fits := represents.fits
    omega
  have after := represents.changed _ counted fits length
    ⟨old ++ rest, List.append_assoc _ _ _⟩
  rw [represents.count, ← represents.elementsCount]
  exact after

theorem delete_represents (represents : Represents list seq room) {index : Nat}
    (inside : index < seq.length) (roomy : size = 0 ∨ seq.length < room.space) :
    ∃ list', shdListRemoveImpl list index false = .ok (list', none) ∧
      Represents list' (seq.eraseIdx index) { room with count := room.count - 1 } := by
  obtain ⟨old, rest, -, -, moved, length⟩ :=
    represents.removes (List.getElem?_eq_getElem inside) roomy
  refine ⟨_, ?_, represents.erased inside length⟩
  simp only [shdListRemoveImpl, represents.elementSize, represents.elementsCount, subSize,
    if_pos (Nat.le_of_lt inside), keepTemp]
  exact inBounds_bind moved _

/-- An element that is not larger than a pointer can be kept in `temp`. -/
theorem keepTemp_small (elementSize : list.elementSize = size) {holeAt : Nat} {removed : Element size}
    (found : read list.alloc holeAt size = some removed.1) (small : size ≤ pointerSize) :
    ∃ temp, keepTemp list holeAt true = .ok temp ∧ read temp 0 size = some removed.1 := by
  have zeros : List.replicate pointerSize (0 : Byte) =
      [] ++ List.replicate size 0 ++ List.replicate (pointerSize - size) 0 := by
    rw [List.nil_append, List.replicate_append_replicate, Nat.add_sub_cancel' small]
  have same : (List.replicate size (0 : Byte)).length = removed.1.length := by
    rw [List.length_replicate, removed.2]
  have written : write (List.replicate pointerSize 0) 0 removed.1 =
      some ([] ++ removed.1 ++ List.replicate (pointerSize - size) 0) := by
    rw [zeros]
    exact write_parts [] _ _ removed.1 rfl same
  refine ⟨[] ++ removed.1 ++ List.replicate (pointerSize - size) 0, ?_,
    read_parts [] _ _ rfl removed.2⟩
  simp only [keepTemp, if_true, elementSize]
  rw [inBounds_bind found, written]
  rfl

theorem remove_represents (represents : Represents list seq room) {index : Nat}
    {removed : Element size} (isRemoved : seq[index]? = some removed) (roomy : size = 0 ∨ seq.length < room.space)
    (small : size ≤ pointerSize) :
    ∃ list', shdListRemoveImpl list index true = .ok (list', some removed.1) ∧
      Represents list' (seq.eraseIdx index) { room with count := room.count - 1 } := by
  obtain ⟨inside, -⟩ := List.getElem?_eq_some_iff.mp isRemoved
  obtain ⟨old, rest, oldSize, found, moved, length⟩ := represents.removes isRemoved roomy
  obtain ⟨temp, kept, inTemp⟩ := keepTemp_small represents.elementSize found small
  have atEnd : (bytesOf (seq.eraseIdx index)).length = size * (list.elementsCount - 1) := by
    rw [length_bytesOf, List.length_eraseIdx_of_lt inside, represents.elementsCount]
  have written := write_parts _ old rest removed.1 atEnd (oldSize.trans removed.2.symm)
  have last := read_parts _ removed.1 rest atEnd removed.2
  have sameLength : (bytesOf (seq.eraseIdx index) ++ removed.1 ++ rest).length = list.alloc.length := by
    rw [← length]
    simp only [List.length_append, oldSize, removed.2]
  refine ⟨_, ?_, represents.erased inside sameLength⟩
  rw [represents.elementsCount] at written last ⊢
  simp only [shdListRemoveImpl, represents.elementSize, represents.elementsCount, subSize,
    if_pos (Nat.le_of_lt inside), kept, if_true]
  apply (inBounds_bind moved _).trans
  apply (inBounds_bind inTemp _).trans
  apply (inBounds_bind written _).trans
  exact inBounds_bind last _

/-! ## Removals that leave the bytes -/

/-- A full list has no bytes behind its elements. -/
theorem move_full (represents : Represents list seq room) {index : Nat} (inside : index < seq.length)
    (full : ¬ seq.length < room.space) (sized : size ≠ 0) :
    move list.alloc (size * index) (size * (index + 1)) (size * (seq.length - index)) = none := by
  have outside : read list.alloc (size * (index + 1)) (size * (seq.length - index)) = none := by
    rw [read_eq_none, represents.length]
    have whole : room.space = seq.length := by
      have fits := represents.fits
      omega
    have moved : size * (index + 1) + size * (seq.length - index) = size * seq.length + size := by
      rw [← Nat.mul_add, ← Nat.mul_succ]
      congr 1
      omega
    rw [whole, moved]
    omega
  simp only [move, outside, Option.bind_eq_bind, Option.bind_none]

theorem delete_full (represents : Represents list seq room) {index : Nat} (inside : index < seq.length)
    (full : ¬ seq.length < room.space) (sized : size ≠ 0) :
    shdListRemoveImpl list index false = .error .outOfBounds := by
  simp only [shdListRemoveImpl, represents.elementSize, represents.elementsCount, subSize,
    if_pos (Nat.le_of_lt inside), keepTemp]
  exact inBounds_bind_none (move_full represents inside full sized) _

/-- An element that is larger than a pointer is written over `temp`. -/
theorem keepTemp_large (elementSize : list.elementSize = size) {holeAt : Nat} {removed : Element size}
    (found : read list.alloc holeAt size = some removed.1) (large : ¬ size ≤ pointerSize) :
    keepTemp list holeAt true = .error .outOfBounds := by
  have outside : write (List.replicate pointerSize (0 : Byte)) 0 removed.1 = none := by
    rw [write_eq_none, List.length_replicate, removed.2]
    omega
  simp only [keepTemp, if_true, elementSize]
  rw [inBounds_bind found, outside]
  rfl

theorem Represents.found (represents : Represents list seq room) {index : Nat} {here : Element size}
    (isHere : seq[index]? = some here) : read list.alloc (size * index) size = some here.1 := by
  obtain ⟨inside, -⟩ := List.getElem?_eq_some_iff.mp isHere
  obtain ⟨rest, alloc⟩ := represents.alloc
  have front : (bytesOf (seq.take index)).length = size * index := by
    rw [length_bytesOf, List.length_take, Nat.min_eq_left (Nat.le_of_lt inside)]
  have found := read_parts _ _ (bytesOf (seq.drop (index + 1)) ++ rest) front here.2
  rw [alloc]
  nth_rewrite 1 [cut_at isHere]
  rw [bytesOf_append, bytesOf_cons]
  simpa only [List.append_assoc] using found

theorem remove_outside (represents : Represents list seq room) {index : Nat} {removed : Element size}
    (isRemoved : seq[index]? = some removed) (sized : size ≠ 0)
    (unfit : ¬ (seq.length < room.space ∧ size ≤ pointerSize)) :
    shdListRemoveImpl list index true = .error .outOfBounds := by
  obtain ⟨inside, -⟩ := List.getElem?_eq_some_iff.mp isRemoved
  have found := represents.found isRemoved
  simp only [shdListRemoveImpl, represents.elementSize, represents.elementsCount, subSize,
    if_pos (Nat.le_of_lt inside)]
  by_cases small : size ≤ pointerSize
  · obtain ⟨temp, kept, -⟩ := keepTemp_small represents.elementSize found small
    have full : ¬ seq.length < room.space := fun less => unfit ⟨less, small⟩
    rw [kept]
    exact inBounds_bind_none (move_full represents inside full sized) _
  · rw [keepTemp_large represents.elementSize found small]
    rfl

/-! ## Runs -/

theorem step_represents (represents : Represents list seq room) {op : Op size}
    {seq' : List (Element size)} {out : Option (Element size)} (applies : op.apply seq = some (seq', out))
    (fits : op.Fits room) :
    ∃ list', step fill list op = .ok (list', out.map Subtype.val) ∧
      Represents list' seq' (op.after room) := by
  cases op with
  | append element =>
      cases applies
      obtain ⟨list', ran, after⟩ := append_represents fill represents element
      exact ⟨list', by simp only [step, ran]; rfl, after⟩
  | pop =>
      obtain ⟨last, isLast, same⟩ := Option.map_eq_some_iff.mp applies
      cases same
      obtain ⟨list', ran, after⟩ := pop_represents represents isLast
      exact ⟨list', by simp only [step, ran]; rfl, after⟩
  | insert index element =>
      simp only [Op.apply, Option.ite_none_right_eq_some] at applies
      obtain ⟨inside, same⟩ := applies
      cases same
      obtain ⟨list', ran, after⟩ := insert_represents fill represents inside element
      exact ⟨list', by simp only [step, ran]; rfl, after⟩
  | delete index =>
      simp only [Op.apply, Option.ite_none_right_eq_some] at applies
      obtain ⟨inside, same⟩ := applies
      cases same
      rw [Op.Fits, represents.count] at fits
      exact delete_represents represents inside fits
  | remove index =>
      obtain ⟨removed, isRemoved, same⟩ := Option.map_eq_some_iff.mp applies
      cases same
      rw [Op.Fits, represents.count] at fits
      cases fits with
      | inl none =>
          exact remove_represents represents isRemoved (.inl none) (by rw [none]; decide)
      | inr both => exact remove_represents represents isRemoved (.inr both.1) both.2
  | clear =>
      cases applies
      exact ⟨_, rfl, represents.changed [] rfl (Nat.zero_le _) rfl ⟨list.alloc, rfl⟩⟩

/-- A removal that does not fit leaves the bytes of the list. -/
theorem step_outside (represents : Represents list seq room) {op : Op size}
    {seq' : List (Element size)} {out : Option (Element size)} (applies : op.apply seq = some (seq', out))
    (unfit : ¬ op.Fits room) : step fill list op = .error .outOfBounds := by
  cases op with
  | delete index =>
      simp only [Op.apply, Option.ite_none_right_eq_some] at applies
      rw [Op.Fits, represents.count, not_or] at unfit
      exact delete_full represents applies.1 unfit.2 unfit.1
  | remove index =>
      obtain ⟨removed, isRemoved, -⟩ := Option.map_eq_some_iff.mp applies
      rw [Op.Fits, represents.count, not_or] at unfit
      exact remove_outside represents isRemoved unfit.1 unfit.2
  | append element => exact absurd trivial unfit
  | pop => exact absurd trivial unfit
  | insert index element => exact absurd trivial unfit
  | clear => exact absurd trivial unfit

theorem run_represents {ops : List (Op size)} :
    ∀ {list : CList} {seq seq' : List (Element size)} {room : Room} {outs : List (Option (Element size))},
      Represents list seq room → applyAll seq ops = some (seq', outs) → AllFit room ops →
      ∃ last room', run fill list ops = .ok (last, outs.map (Option.map Subtype.val)) ∧
        Represents last seq' room' := by
  induction ops with
  | nil =>
      intro list seq seq' room outs represents applies _
      cases applies
      exact ⟨list, room, rfl, represents⟩
  | cons op rest ih =>
      intro list seq seq' room outs represents applies fits
      obtain ⟨⟨next, out⟩, first, others⟩ := Option.bind_eq_some_iff.mp applies
      obtain ⟨⟨end', outs'⟩, restApplies, same⟩ := Option.bind_eq_some_iff.mp others
      cases same
      obtain ⟨list', ran, represents'⟩ := step_represents fill represents first fits.1
      obtain ⟨last, room', restRan, after⟩ := ih represents' restApplies fits.2
      have whole : run fill list (op :: rest) =
          .ok (last, out.map Subtype.val :: outs'.map (Option.map Subtype.val)) :=
        Fallible.bind_eq_ok.mpr ⟨_, ran, Fallible.bind_eq_ok.mpr ⟨_, restRan, rfl⟩⟩
      exact ⟨last, room', whole, after⟩

theorem run_outside {ops : List (Op size)} :
    ∀ {list : CList} {seq seq' : List (Element size)} {room : Room} {outs : List (Option (Element size))},
      Represents list seq room → applyAll seq ops = some (seq', outs) → ¬ AllFit room ops →
      run fill list ops = .error .outOfBounds := by
  induction ops with
  | nil => exact fun _ _ unfit => absurd trivial unfit
  | cons op rest ih =>
      intro list seq seq' room outs represents applies unfit
      obtain ⟨⟨next, out⟩, first, others⟩ := Option.bind_eq_some_iff.mp applies
      obtain ⟨⟨end', outs'⟩, restApplies, same⟩ := Option.bind_eq_some_iff.mp others
      by_cases fits : op.Fits room
      · obtain ⟨list', ran, represents'⟩ := step_represents fill represents first fits
        have stops := ih represents' restApplies fun restFits => unfit ⟨fits, restFits⟩
        rw [run, ran]
        change (run fill list' rest >>= _) = _
        rw [stops]
        rfl
      · simp only [run, step_outside fill represents first fits]
        rfl

/-- Operations that a sequence has do the same to a list, inside its bytes, exactly when each removal
finds room for another element, and no element that is moved to the end is larger than a pointer. -/
theorem run_exact (ops : List (Op size)) {seq : List (Element size)}
    {outs : List (Option (Element size))} (applies : applyAll [] ops = some (seq, outs)) :
    (∃ list, run fill (shdNewListImpl fill size) ops = .ok (list, outs.map (Option.map Subtype.val)) ∧
      list.content = seq.map Subtype.val) ↔ AllFit ⟨0, 8⟩ ops := by
  constructor
  · rintro ⟨list, ran, -⟩
    by_contra unfit
    rw [run_outside fill (represents_new fill size) applies unfit] at ran
    exact nomatch ran
  · intro fits
    obtain ⟨list, room, ran, represents⟩ := run_represents fill (represents_new fill size) applies fits
    exact ⟨list, ran, represents.content⟩

/-- An element of four bytes. -/
def word (byte : Byte) : Element 4 := ⟨[byte, 0, 0, 0], rfl⟩

theorem run_words : ∃ list, run (fun _ => 255) (shdNewListImpl (fun _ => 255) 4)
      [.append (word 1), .insert 0 (word 2), .append (word 3), .remove 1, .delete 1] =
        .ok (list, [none, none, none, some [1, 0, 0, 0], none]) ∧
    list.content = [[2, 0, 0, 0]] :=
  (run_exact (fun _ => 255)
    [.append (word 1), .insert 0 (word 2), .append (word 3), .remove 1, .delete 1] rfl).mpr
    ⟨trivial, trivial, trivial, .inr ⟨by decide, by decide⟩, .inr (by decide), trivial⟩

/-- The last one of eight elements is deleted: the bytes behind it are not those of the list. -/
theorem run_fullDelete :
    applyAll [] (List.replicate 8 (.append (word 7)) ++ [.delete 7]) =
        some (List.replicate 7 (word 7), List.replicate 9 none) ∧
      run (fun _ => 255) (shdNewListImpl (fun _ => 255) 4)
        (List.replicate 8 (.append (word 7)) ++ [.delete 7]) = .error .outOfBounds :=
  ⟨by decide, by rfl⟩

end Shady.Lists
