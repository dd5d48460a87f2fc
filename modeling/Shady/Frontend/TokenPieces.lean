import Shady.Frontend.TokenReads

/-!
# The pieces of a source

A source is cut into pieces from the front, without positions: newlines, blanks and comments, and the
texts of the tokens. The tokenizer skips and reads just these pieces.
-/

set_option autoImplicit false

namespace Shady.Slim

/-! ## What is skipped -/

/-- The size of a comment behind its first two characters, with the two that close it. -/
def commentSize : List Char → Nat
  | [] => 0
  | [_] => 1
  | c :: d :: rest => if c = '*' ∧ d = '/' then 2 else commentSize (d :: rest) + 1

/-- The size of the newline, the blank or the comment at the front, zero where there is none. -/
def skipSize : List Char → Nat
  | [] => 0
  | c :: rest =>
      if c = '\n' ∨ isWhitespace c then 1
      else if c = '/' ∧ rest.head? = some '/' then ((c :: rest).takeWhile (· ≠ '\n')).length
      else if c = '/' ∧ rest.head? = some '*' ∧ 3 ≤ rest.length then 2 + commentSize rest.tail
      else 0

/-- The pieces that are skipped in front of a token. -/
def gap (s : List Char) : List (List Char) :=
  if _more : 0 < skipSize s ∧ s ≠ [] then s.take (skipSize s) :: gap (s.drop (skipSize s)) else []
termination_by s.length
decreasing_by
  have some := List.length_pos_iff.mpr _more.2
  rw [List.length_drop]
  omega

/-- The text behind what is skipped. -/
def afterGap (s : List Char) : List Char := s.drop (gap s).flatten.length

/-! ## Tokens -/

/-- The text of the token at the front. -/
def tokenText (s : List Char) : Option (List Char) :=
  if canStartIdentifier (charAt s 0) then some (s.takeWhile canMakeUpIdentifier)
  else if isDigit (charAt s 0) then some (s.take (numberSize s))
  else if charAt s 0 = '"' ∧ '"' ∈ s.tail then
    some ('"' :: s.tail.takeWhile (· ≠ '"') ++ ['"'])
  else (fixedToken s none).map fun token => s.take token.2

/-- The pieces that a call takes from the front, or none where there is no token. -/
def callPieces (s : List Char) : Option (List (List Char)) :=
  if afterGap s = [] then some (gap s) else (tokenText (afterGap s)).map (gap s ++ [·])

/-- What is left of a source after some calls. -/
inductive Reached (source : List Char) : List Char → Prop
  | start : Reached source source
  | call (s : List Char) (pieces : List (List Char)) : Reached source s →
      callPieces s = some pieces → Reached source (s.drop pieces.flatten.length)

/-! ## Skipping -/

theorem skipSize_le (s : List Char) : skipSize s ≤ s.length := by
  have comment : ∀ s : List Char, commentSize s ≤ s.length := by
    intro s
    induction s using commentSize.induct with
    | case1 => exact Nat.le_refl 0
    | case2 c => exact Nat.le_refl 1
    | case3 c d rest closes =>
        rw [commentSize, if_pos closes]
        simp
    | case4 c d rest open_ ih =>
        rw [commentSize, if_neg open_, List.length_cons]
        omega
  cases s with
  | nil => exact Nat.le_refl 0
  | cons c rest =>
      rw [skipSize]
      split_ifs with blank line block
      · simp
      · exact (List.takeWhile_prefix _).length_le
      · have tail := comment rest.tail
        rw [List.length_tail] at tail
        rw [List.length_cons]
        omega
      · exact Nat.zero_le _

/-- The pieces that are skipped are the front of the text. -/
theorem gap_flatten (s : List Char) : (gap s).flatten ++ afterGap s = s := by
  have isPrefix : (gap s).flatten <+: s := by
    induction s using gap.induct with
    | case1 s more ih =>
        rw [gap, dif_pos more, List.flatten_cons]
        have whole := (List.prefix_append_right_inj (s.take (skipSize s))).mpr ih
        rwa [List.take_append_drop] at whole
    | case2 s stop =>
        rw [gap, dif_neg stop]
        exact List.nil_prefix
  exact (List.prefix_iff_eq_append.mp isPrefix)

/-- Nothing is skipped behind what is skipped. -/
theorem skipSize_afterGap (s : List Char) : skipSize (afterGap s) = 0 := by
  induction s using gap.induct with
  | case1 s more ih =>
      rw [afterGap, gap, dif_pos more, List.flatten_cons, List.length_append, List.length_take,
        Nat.min_eq_left (skipSize_le s), ← List.drop_drop]
      exact ih
  | case2 s stop =>
      rw [afterGap, gap, dif_neg stop]
      by_cases empty : s = []
      · rw [empty]
        rfl
      · exact Nat.eq_zero_of_not_pos fun pos => stop ⟨pos, empty⟩

theorem commentSize_cons (c d : Char) (rest : List Char) : commentSize (c :: d :: rest) =
    if c = '*' ∧ d = '/' then 2 else commentSize (d :: rest) + 1 := rfl

/-- The search for the end of a comment looks back at the character before. -/
theorem endOfComment_eq (source : List Char) (fuel : Nat) : ∀ pos,
    pos < source.length → source.length - (pos + 1) ≤ fuel →
    Tokenizer.endOfComment source fuel (pos + 1) = pos + commentSize (source.drop pos) := by
  induction fuel with
  | zero =>
      intro pos inside enough
      rw [Tokenizer.endOfComment, List.drop_eq_getElem_cons inside,
        List.drop_eq_nil_of_le (by omega)]
      rfl
  | succ fuel ih =>
      intro pos inside enough
      rw [Tokenizer.endOfComment, List.drop_eq_getElem_cons inside]
      by_cases more : pos + 1 < source.length
      · have here : charAt source pos = source[pos] := by
          rw [charAt, List.getD_eq_getElem?_getD, List.getElem?_eq_getElem inside]
          rfl
        have next : charAt source (pos + 1) = source[pos + 1] := by
          rw [charAt, List.getD_eq_getElem?_getD, List.getElem?_eq_getElem more]
          rfl
        have rest := ih (pos + 1) more (by omega)
        rw [List.drop_eq_getElem_cons more] at rest ⊢
        rw [if_pos more, commentSize_cons, Nat.add_sub_cancel, here, next, rest]
        by_cases closes : source[pos] = '*' ∧ source[pos + 1] = '/'
        · rw [if_pos closes.symm, if_pos closes]
        · rw [if_neg fun both => closes both.symm, if_neg closes]
          omega
      · rw [if_neg more, List.drop_eq_nil_of_le (by omega)]
        rfl

/-- The tokenizer behind a piece that is skipped. -/
def Tokenizer.skip (t : Tokenizer) (piece : List Char) : Tokenizer :=
  if piece = ['\n'] then { t with line := t.line + 1, pos := t.pos + 1, lastLinePos := t.pos + 1 }
  else { t with pos := t.pos + piece.length }

theorem Tokenizer.skip_other (t : Tokenizer) {piece : List Char} (other : piece ≠ ['\n']) :
    t.skip piece = { t with pos := t.pos + piece.length } := if_neg other

theorem head?_eq_charAt {source : List Char} {pos : Nat} (d : Char) :
    (source.drop pos).head? = some d ↔ pos + 1 ≤ source.length ∧ charAt source pos = d := by
  rw [List.head?_drop, charAt, List.getD_eq_getElem?_getD]
  by_cases inside : pos < source.length
  · rw [List.getElem?_eq_getElem inside, Option.some_inj, Option.getD_some]
    exact (and_iff_right inside).symm
  · rw [List.getElem?_eq_none (Nat.not_lt.mp inside)]
    constructor
    · intro found
      cases found
    · intro both
      exact absurd both.1 inside

/-- A turn of the loop skips a piece, or ends it. -/
theorem eatFrom_succ (fuel : Nat) (t : Tokenizer) :
    Tokenizer.eatFrom (fuel + 1) t = if 0 < skipSize t.slice ∧ t.slice ≠ [] then
        Tokenizer.eatFrom fuel (t.skip (t.slice.take (skipSize t.slice)))
      else t := by
  rw [Tokenizer.eatFrom]
  cases slice : t.slice with
  | nil =>
      have ended : ¬ t.pos < t.source.length := by
        have length := congrArg List.length slice
        rw [Tokenizer.slice, List.length_drop, List.length_nil] at length
        omega
      rw [if_neg ended, if_neg fun both => both.2 rfl]
  | cons c rest =>
      have before := pos_lt_of_slice slice
      have here : charAt t.source t.pos = c := by
        have first := congrArg List.head? slice
        rw [Tokenizer.slice] at first
        exact ((head?_eq_charAt c).mp first).2
      have tail : t.source.drop (t.pos + 1) = rest := by
        have tail := congrArg List.tail slice
        rwa [Tokenizer.slice, List.tail_drop] at tail
      have length : rest.length + 1 + t.pos = t.source.length := by
        have length := congrArg List.length slice
        rw [Tokenizer.slice, List.length_drop, List.length_cons] at length
        omega
      rw [if_pos before, here]
      dsimp only
      by_cases newline : c = '\n'
      · have size : skipSize (c :: rest) = 1 := by rw [skipSize, if_pos (Or.inl newline)]
        rw [if_pos newline, size, if_pos ⟨Nat.one_pos, List.cons_ne_nil c rest⟩, newline]
        rfl
      by_cases blank : isWhitespace c
      · have size : skipSize (c :: rest) = 1 := by rw [skipSize, if_pos (Or.inr blank)]
        have other : [c] ≠ ['\n'] := fun same => newline (List.cons.inj same).1
        rw [if_neg newline, if_pos blank, size, if_pos ⟨Nat.one_pos, List.cons_ne_nil c rest⟩,
          List.take_one, List.head?_cons, Option.toList_some, t.skip_other other]
        rfl
      have unblank : ¬ (c = '\n' ∨ isWhitespace c) := fun either => either.elim newline blank
      have second : ∀ d, rest.head? = some d ↔
          t.pos + 2 ≤ t.source.length ∧ charAt t.source (t.pos + 1) = d := by
        intro d
        rw [← tail]
        exact head?_eq_charAt d
      by_cases line : c = '/' ∧ rest.head? = some '/'
      · have same := (second '/').mp line.2
        have size : skipSize (c :: rest) = ((c :: rest).takeWhile (· ≠ '\n')).length := by
          rw [skipSize, if_neg unblank, if_pos line]
        have piece : (c :: rest).take (skipSize (c :: rest)) = (c :: rest).takeWhile (· ≠ '\n') := by
          rw [size]
          exact (List.prefix_iff_eq_take.mp (List.takeWhile_prefix _)).symm
        have starts : (c :: rest).takeWhile (· ≠ '\n') = c :: rest.takeWhile (· ≠ '\n') :=
          List.takeWhile_cons_of_pos (decide_eq_true newline)
        have other : (c :: rest).takeWhile (· ≠ '\n') ≠ ['\n'] := by
          rw [starts]
          exact fun same => newline (List.cons.inj same).1
        have positive : 0 < skipSize (c :: rest) := by
          rw [size, starts]
          exact Nat.succ_pos _
        rw [if_neg newline, if_neg blank, if_pos ⟨same.1, line.1, same.2⟩,
          if_pos ⟨positive, List.cons_ne_nil c rest⟩, piece, t.skip_other other, ← slice]
        rfl
      rw [if_neg newline, if_neg blank,
        if_neg fun both => line ⟨both.2.1, (second '/').mpr ⟨both.1, both.2.2⟩⟩]
      by_cases block : c = '/' ∧ rest.head? = some '*' ∧ 3 ≤ rest.length
      · have same := (second '*').mp block.2.1
        have size : skipSize (c :: rest) = 2 + commentSize rest.tail := by
          rw [skipSize, if_neg unblank, if_neg line, if_pos block]
        have finish := endOfComment_eq t.source t.source.length (t.pos + 2) (by omega) (by omega)
        have behind : t.source.drop (t.pos + 2) = rest.tail := by rw [← tail, List.tail_drop]
        have other : (c :: rest).take (skipSize (c :: rest)) ≠ ['\n'] := by
          rw [size, Nat.add_comm, List.take_succ_cons]
          exact fun same => newline (List.cons.inj same).1
        rw [if_pos ⟨by omega, block.1, same.2⟩, if_pos ⟨by omega, List.cons_ne_nil c rest⟩,
          t.skip_other other, List.length_take, Nat.min_eq_left (skipSize_le _), size, finish, behind,
          Nat.add_assoc]
      · have size : skipSize (c :: rest) = 0 := by
          rw [skipSize, if_neg unblank, if_neg line, if_neg block]
        rw [if_neg fun both => block ⟨both.2.1, (second '*').mpr ⟨by omega, both.2.2⟩, by omega⟩,
          size, if_neg fun both => Nat.lt_irrefl 0 both.1]

theorem Tokenizer.skip_source (t : Tokenizer) (piece : List Char) :
    (t.skip piece).source = t.source := by
  rw [Tokenizer.skip]
  split_ifs <;> rfl

theorem Tokenizer.skip_pos (t : Tokenizer) (piece : List Char) :
    (t.skip piece).pos = t.pos + piece.length := by
  rw [Tokenizer.skip]
  split_ifs with newline
  · rw [newline]
    rfl
  · rfl

theorem Tokenizer.skip_slice (t : Tokenizer) (piece : List Char) :
    (t.skip piece).slice = t.slice.drop piece.length := by
  rw [Tokenizer.slice, Tokenizer.slice, t.skip_source, t.skip_pos, List.drop_drop]

/-- The tokenizer skips the pieces of the gap one by one. -/
theorem eatFrom_eq_foldl (fuel : Nat) : ∀ t : Tokenizer, t.slice.length ≤ fuel →
    Tokenizer.eatFrom fuel t = (gap t.slice).foldl Tokenizer.skip t := by
  induction fuel with
  | zero =>
      intro t enough
      rw [List.length_eq_zero_iff.mp (Nat.le_zero.mp enough), gap, dif_neg fun both => both.2 rfl]
      rfl
  | succ fuel ih =>
      intro t enough
      rw [eatFrom_succ, gap]
      by_cases more : 0 < skipSize t.slice ∧ t.slice ≠ []
      · have length : (t.slice.take (skipSize t.slice)).length = skipSize t.slice := by
          rw [List.length_take, Nat.min_eq_left (skipSize_le _)]
        have rest := ih (t.skip (t.slice.take (skipSize t.slice))) (by
          have nonempty := List.length_pos_iff.mpr more.2
          rw [t.skip_slice, length, List.length_drop]
          omega)
        rw [if_pos more, dif_pos more, List.foldl_cons, rest, t.skip_slice, length]
      · rw [if_neg more, dif_neg more]
        rfl

theorem eatWhitespaceAndComments_eq (t : Tokenizer) :
    t.eatWhitespaceAndComments = (gap t.slice).foldl Tokenizer.skip t := by
  refine eatFrom_eq_foldl _ t ?_
  rw [Tokenizer.slice, List.length_drop]
  exact Nat.sub_le _ _

theorem foldl_skip (pieces : List (List Char)) : ∀ t : Tokenizer,
    (pieces.foldl Tokenizer.skip t).source = t.source ∧
      (pieces.foldl Tokenizer.skip t).pos = t.pos + pieces.flatten.length := by
  induction pieces with
  | nil => exact fun t => ⟨rfl, rfl⟩
  | cons piece pieces ih =>
      intro t
      have rest := ih (t.skip piece)
      rw [List.foldl_cons, List.flatten_cons, List.length_append, rest.1, rest.2, t.skip_source,
        t.skip_pos, Nat.add_assoc]
      exact ⟨rfl, rfl⟩

theorem eat_slice (t : Tokenizer) : t.eatWhitespaceAndComments.slice = afterGap t.slice := by
  have eaten := foldl_skip (gap t.slice) t
  rw [eatWhitespaceAndComments_eq, Tokenizer.slice, eaten.1, eaten.2, afterGap, Tokenizer.slice,
    List.drop_drop]

/-! ## What a call takes -/

/-- The text of a token, and what is behind it. -/
inductive TokenText (start : Nat) : Token → List Char → List Char → Prop
  | eof : TokenText start ⟨.eofTok, 0, 0⟩ [] []
  /-- An operator or a keyword: no longer one of the table is in front of the text. -/
  | fixed (tag : TokenTag) (text : String) (rest : List Char) : (tag, text) ∈ tokenStrings →
      (∀ token ∈ tokenStrings, token.2.toList <+: text.toList ++ rest →
        token.2.length ≤ text.length) →
      TokenText start ⟨tag, start, start + text.length⟩ text.toList rest
  | identifier (text rest : List Char) : (∃ c, text.head? = some c ∧ canStartIdentifier c) →
      (∀ c ∈ text, canMakeUpIdentifier c) → (∀ c, rest.head? = some c → canMakeUpIdentifier c = false) →
      (∀ token ∈ tokenStrings, token.2.toList ≠ text) →
      TokenText start ⟨.identifierTok, start, start + text.length⟩ text rest
  | number (text rest : List Char) : (∃ c, text.head? = some c ∧ isDigit c) →
      text.length = numberSize (text ++ rest) →
      TokenText start ⟨numberTag (text ++ rest), start, start + text.length⟩ text rest
  /-- The token of a string is the text between the quotes. -/
  | string (body rest : List Char) : '"' ∉ body →
      TokenText start ⟨.stringLitTok, start + 1, start + 1 + body.length⟩ ('"' :: body ++ ['"']) rest

/-! ## The table -/

/-- A symbol is in front of those that it is the beginning of. -/
theorem symbols_longest : (tokenStrings.filter fun token =>
    !canStartIdentifier (charAt token.2.toList 0)).Pairwise fun token later =>
      token.2.toList.isPrefixOf later.2.toList = false := by
  decide +kernel

theorem tokenStrings_word : ∀ token ∈ tokenStrings, canStartIdentifier (charAt token.2.toList 0) →
    token.2.toList.all canMakeUpIdentifier := by
  decide +kernel

theorem tokenStrings_nonempty : ∀ token ∈ tokenStrings, token.2.toList ≠ [] := by
  decide +kernel

theorem charAt_zero_of_front {text s : List Char} (nonempty : text ≠ []) (isPrefix : text <+: s) :
    charAt text 0 = charAt s 0 := by
  obtain ⟨rest, rfl⟩ := isPrefix
  cases text with
  | nil => exact absurd rfl nonempty
  | cons c text => rfl

/-- A keyword is not longer than the word that is there. -/
theorem keyword_le {s : List Char} (word : canStartIdentifier (charAt s 0)) {token : TokenTag × String}
    (inside : token ∈ tokenStrings) (isPrefix : token.2.toList <+: s) :
    token.2.toList <+: s.takeWhile canMakeUpIdentifier := by
  have start := charAt_zero_of_front (tokenStrings_nonempty token inside) isPrefix
  rw [← start] at word
  have all := tokenStrings_word token inside word
  obtain ⟨rest, rfl⟩ := isPrefix
  rw [List.takeWhile_append_of_pos (List.all_eq_true.mp all)]
  exact List.prefix_append _ _

/-- The first token of the table that is in front is the longest one. -/
theorem fixed_longest {s : List Char} (symbol : ¬ canStartIdentifier (charAt s 0))
    {token : TokenTag × String}
    (found : tokenStrings.find? (fun token => token.2.toList.isPrefixOf s) = some token) :
    ∀ other ∈ tokenStrings, other.2.toList <+: s → other.2.length ≤ token.2.length := by
  obtain ⟨isPrefix, before, after, split, none⟩ := List.find?_eq_some_iff_append.mp found
  have isPrefix := List.isPrefixOf_iff_prefix.mp isPrefix
  intro other inside otherPrefix
  rw [split] at inside
  have inTable : token ∈ tokenStrings := by
    rw [split]
    exact List.mem_append_right before List.mem_cons_self
  cases List.mem_append.mp inside with
  | inl earlier =>
      have no := none other earlier
      rw [List.isPrefixOf_iff_prefix.mpr otherPrefix] at no
      exact absurd no (by decide)
  | inr later =>
      cases List.mem_cons.mp later with
      | inl same => rw [same]
      | inr later =>
          by_contra longer
          have le : token.2.toList.length ≤ other.2.toList.length := by
            rw [String.length_toList, String.length_toList]
            omega
          have isPart := List.prefix_of_prefix_length_le isPrefix otherPrefix le
          have begins := charAt_zero_of_front (tokenStrings_nonempty token inTable) isPrefix
          have isSymbol : (!canStartIdentifier (charAt token.2.toList 0)) = true := by
            simpa [begins] using symbol
          have same := charAt_zero_of_front (tokenStrings_nonempty token inTable) isPart
          have ordered := symbols_longest
          rw [split, List.filter_append, List.filter_cons, if_pos isSymbol] at ordered
          have pair := (List.pairwise_cons.mp (List.pairwise_append.mp ordered).2.1).1 other
            (List.mem_filter.mpr ⟨later, same ▸ isSymbol⟩)
          rw [List.isPrefixOf_iff_prefix.mpr isPart] at pair
          exact nomatch pair

theorem fixedToken_none (s : List Char) : fixedToken s none =
    (tokenStrings.find? fun token => token.2.toList.isPrefixOf s).map
      fun token => (token.1, token.2.length) := by
  rw [fixedToken]
  simp only [Option.all_none, Bool.and_true]

theorem fixedToken_some (s : List Char) (size : Nat) : fixedToken s (some size) =
    (tokenStrings.find? fun token => token.2.toList.isPrefixOf s && token.2.length == size).map
      fun token => (token.1, token.2.length) := rfl

/-! ## Reading a token -/

/-- The call that reads a token. -/
def Reads (u : Tokenizer) (text : List Char) (result : Option Tokenizer) : Prop :=
  ∃ token, result = some { u with pos := u.pos + text.length, current := token } ∧
    TokenText u.pos token text (u.slice.drop text.length) ∧ text <+: u.slice ∧ text ≠ []

theorem behind_takeWhile (p : Char → Bool) (s : List Char) :
    ∀ c, (s.drop (s.takeWhile p).length).head? = some c → p c = false := by
  induction s with
  | nil =>
      intro c found
      exact nomatch found
  | cons d s ih =>
      intro c found
      by_cases more : p d
      · rw [List.takeWhile_cons_of_pos more] at found
        exact ih c found
      · rw [List.takeWhile_cons_of_neg more] at found
        rw [← Option.some.inj found]
        exact Bool.eq_false_iff.mpr more

theorem reads_word {u : Tokenizer} (word : canStartIdentifier (charAt u.slice 0))
    (nonempty : u.slice ≠ []) : Reads u (u.slice.takeWhile canMakeUpIdentifier)
      (match fixedToken u.slice (some (scan canMakeUpIdentifier u.slice 0)) with
        | some (tag, size) => some (u.accept tag u.pos size size)
        | none => some (u.accept .identifierTok u.pos (scan canMakeUpIdentifier u.slice 0)
            (scan canMakeUpIdentifier u.slice 0))) := by
  have size : scan canMakeUpIdentifier u.slice 0 =
      (u.slice.takeWhile canMakeUpIdentifier).length := by
    rw [scan, List.drop_zero, Nat.zero_add]
  have isPrefix : u.slice.takeWhile canMakeUpIdentifier <+: u.slice := List.takeWhile_prefix _
  have whole : u.slice.takeWhile canMakeUpIdentifier ++
      u.slice.drop (u.slice.takeWhile canMakeUpIdentifier).length = u.slice :=
    List.prefix_iff_eq_append.mp isPrefix
  obtain ⟨c, rest, slice⟩ := List.exists_cons_of_ne_nil nonempty
  have start : canStartIdentifier c := by
    rw [slice] at word
    exact word
  have makes : canMakeUpIdentifier c := by
    rw [canMakeUpIdentifier, start]
    rfl
  have first : u.slice.takeWhile canMakeUpIdentifier =
      c :: rest.takeWhile canMakeUpIdentifier := by
    rw [slice, List.takeWhile_cons_of_pos makes]
  have some_text : u.slice.takeWhile canMakeUpIdentifier ≠ [] := by
    rw [first]
    exact List.cons_ne_nil _ _
  rw [fixedToken_some, size]
  cases found : tokenStrings.find? (fun token => token.2.toList.isPrefixOf u.slice &&
      token.2.length == (u.slice.takeWhile canMakeUpIdentifier).length) with
  | some token =>
      have both := List.find?_some found
      rw [Bool.and_eq_true, beq_iff_eq, List.isPrefixOf_iff_prefix] at both
      have inTable := List.mem_of_find?_eq_some found
      have text : token.2.toList = u.slice.takeWhile canMakeUpIdentifier := by
        have shorter := keyword_le word inTable both.1
        exact shorter.eq_of_length (by rw [String.length_toList, both.2])
      refine ⟨⟨token.1, u.pos, u.pos + token.2.length⟩, ?_, ?_, isPrefix, some_text⟩
      · rw [Option.map_some, ← both.2]
        rfl
      · rw [← text, String.length_toList]
        refine .fixed token.1 token.2 _ inTable fun other inside otherPrefix => ?_
        rw [← String.length_toList, text, whole] at otherPrefix
        have le := (keyword_le word inside otherPrefix).length_le
        rwa [← text, String.length_toList, String.length_toList] at le
  | none =>
      refine ⟨⟨.identifierTok, u.pos, u.pos + (u.slice.takeWhile canMakeUpIdentifier).length⟩, rfl,
        ?_, isPrefix, some_text⟩
      refine .identifier _ _ ⟨c, by rw [first]; rfl, start⟩ (fun d inside => ?_) (fun d behind => ?_)
        (fun token inside same => ?_)
      · exact List.mem_takeWhile_imp inside
      · exact behind_takeWhile canMakeUpIdentifier u.slice d behind
      · have absent := List.find?_eq_none.mp found token inside
        rw [same, List.isPrefixOf_iff_prefix.mpr isPrefix, ← String.length_toList, same,
          beq_self_eq_true] at absent
        exact absurd rfl absent

theorem reads_number {u : Tokenizer} (digit : isDigit (charAt u.slice 0)) :
    Reads u (u.slice.take (numberSize u.slice))
      (some (u.accept (numberTag u.slice) u.pos (numberSize u.slice) (numberSize u.slice))) := by
  have length : (u.slice.take (numberSize u.slice)).length = numberSize u.slice := by
    rw [List.length_take, Nat.min_eq_left (Checked.numberSize_le _)]
  have positive := Checked.numberSize_pos digit
  have some_text : u.slice.take (numberSize u.slice) ≠ [] := by
    rw [← List.length_pos_iff, length]
    exact positive
  have isPrefix := List.take_prefix (numberSize u.slice) u.slice
  have whole := List.take_append_drop (numberSize u.slice) u.slice
  refine ⟨⟨numberTag u.slice, u.pos, u.pos + numberSize u.slice⟩, ?_, ?_, isPrefix, some_text⟩
  · rw [length]
    rfl
  · have read : TokenText u.pos
        ⟨numberTag (u.slice.take (numberSize u.slice) ++ u.slice.drop (numberSize u.slice)), u.pos,
          u.pos + (u.slice.take (numberSize u.slice)).length⟩
        (u.slice.take (numberSize u.slice)) (u.slice.drop (numberSize u.slice)) := by
      refine .number _ _ ?_ (by rw [whole, length])
      rw [← charAt_zero_of_front some_text isPrefix] at digit
      obtain ⟨c, rest, text⟩ := List.exists_cons_of_ne_nil some_text
      rw [text] at digit ⊢
      exact ⟨c, rfl, digit⟩
    rw [whole, length] at read
    rwa [length]

theorem reads_string {u : Tokenizer} {body rest : List Char} (free : '"' ∉ body)
    (slice : u.slice = '"' :: (body ++ '"' :: rest)) :
    Reads u ('"' :: body ++ ['"'])
      (some (u.accept .stringLitTok (u.pos + 1) body.length (body.length + 2))) := by
  have whole : u.slice = ('"' :: body ++ ['"']) ++ rest := by
    rw [slice]
    simp
  have length : ('"' :: body ++ ['"']).length = body.length + 2 := by simp
  refine ⟨⟨.stringLitTok, u.pos + 1, u.pos + 1 + body.length⟩, ?_, ?_, ⟨rest, whole.symm⟩, by simp⟩
  · rw [length]
    rfl
  · rw [whole, List.drop_left]
    exact .string body rest free

theorem reads_symbol {u : Tokenizer} (symbol : ¬ canStartIdentifier (charAt u.slice 0))
    {token : TokenTag × Nat} (found : fixedToken u.slice none = some token) :
    Reads u (u.slice.take token.2) (some (u.accept token.1 u.pos token.2 token.2)) := by
  rw [fixedToken_none, Option.map_eq_some_iff] at found
  obtain ⟨entry, found, rfl⟩ := found
  have isPrefix := List.isPrefixOf_iff_prefix.mp (List.find?_eq_some_iff_append.mp found).1
  have inTable := List.mem_of_find?_eq_some found
  have text : u.slice.take entry.2.length = entry.2.toList := by
    rw [← String.length_toList]
    exact (List.prefix_iff_eq_take.mp isPrefix).symm
  have whole := List.prefix_iff_eq_append.mp isPrefix
  dsimp only
  rw [text]
  refine ⟨⟨entry.1, u.pos, u.pos + entry.2.length⟩, ?_, ?_, isPrefix,
    tokenStrings_nonempty entry inTable⟩
  · rw [String.length_toList]
    rfl
  · refine .fixed entry.1 entry.2 _ inTable fun other inside otherPrefix => ?_
    rw [whole] at otherPrefix
    exact fixed_longest symbol found other inside otherPrefix

/-- The test for a second quote finds the one that closes the string. -/
theorem quoted_iff {s : List Char} (quote : charAt s 0 = '"') :
    charAt s (stringSize s + 1) = '"' ↔ '"' ∈ s.tail := by
  cases s with
  | nil => exact absurd quote (by decide)
  | cons c more =>
      have opened : c = '"' := quote
      subst opened
      rw [List.tail_cons]
      by_cases inside : '"' ∈ more
      · obtain ⟨body, rest, split, free⟩ := List.eq_append_cons_of_mem inside
        refine ⟨fun _ => inside, fun _ => ?_⟩
        rw [split, Checked.stringSize_closed free rest]
        exact charAt_append ('"' :: body) rest '"'
      · refine ⟨fun found => absurd found ?_, fun found => absurd found inside⟩
        rw [Checked.stringSize_unclosed inside, charAt, List.getD_eq_getElem?_getD,
          List.getElem?_eq_none (by rw [List.length_cons]; omega)]
        decide

/-- The part of `shd_next_token` behind what is skipped. -/
theorem nextToken_eq {t u : Tokenizer} (eaten : t.eatWhitespaceAndComments = u)
    (nonempty : u.pos ≠ u.source.length) : t.nextToken =
      if canStartIdentifier (charAt u.slice 0) then
        match fixedToken u.slice (some (scan canMakeUpIdentifier u.slice 0)) with
          | some (tag, size) => some (u.accept tag u.pos size size)
          | none => some (u.accept .identifierTok u.pos (scan canMakeUpIdentifier u.slice 0)
              (scan canMakeUpIdentifier u.slice 0))
      else if isDigit (charAt u.slice 0) then
        some (u.accept (numberTag u.slice) u.pos (numberSize u.slice) (numberSize u.slice))
      else if charAt u.slice 0 = '"' ∧ charAt u.slice (stringSize u.slice + 1) = '"' then
        some (u.accept .stringLitTok (u.pos + 1) (stringSize u.slice) (stringSize u.slice + 2))
      else match fixedToken u.slice none with
        | some (tag, size) => some (u.accept tag u.pos size size)
        | none => none := by
  rw [Tokenizer.nextToken, eaten]
  exact if_neg nonempty

/-- A call reads the token whose text is behind the gap. -/
theorem nextToken_reads {t u : Tokenizer} (eaten : t.eatWhitespaceAndComments = u)
    (nonempty : u.slice ≠ []) :
    match tokenText u.slice with
    | some text => Reads u text t.nextToken
    | none => t.nextToken = none := by
  have before : u.pos ≠ u.source.length := by
    intro ended
    rw [Tokenizer.slice, ended, List.drop_length] at nonempty
    exact nonempty rfl
  rw [nextToken_eq eaten before, tokenText]
  by_cases word : canStartIdentifier (charAt u.slice 0)
  · rw [if_pos word, if_pos word]
    exact reads_word word nonempty
  rw [if_neg word, if_neg word]
  by_cases digit : isDigit (charAt u.slice 0)
  · rw [if_pos digit, if_pos digit]
    exact reads_number digit
  rw [if_neg digit, if_neg digit]
  by_cases string : charAt u.slice 0 = '"' ∧ '"' ∈ u.slice.tail
  · obtain ⟨body, rest, split, free⟩ := List.eq_append_cons_of_mem string.2
    have slice : u.slice = '"' :: (body ++ '"' :: rest) := by
      obtain ⟨c, more, slice⟩ := List.exists_cons_of_ne_nil nonempty
      rw [slice] at string split ⊢
      rw [List.tail_cons] at split
      rw [split]
      exact congrArg (· :: (body ++ '"' :: rest)) string.1
    have text : u.slice.tail.takeWhile (· ≠ '"') = body := by
      rw [split, Checked.takeWhile_body free]
    have size : stringSize u.slice = body.length := by
      rw [slice, Checked.stringSize_closed free]
    rw [if_pos string, if_pos ⟨string.1, (quoted_iff string.1).mpr string.2⟩, text, size]
    exact reads_string free slice
  rw [if_neg string, if_neg fun both => string ⟨both.1, (quoted_iff both.1).mp both.2⟩]
  cases found : fixedToken u.slice none with
  | none => rfl
  | some token => exact reads_symbol word found

theorem nextToken_eof {t u : Tokenizer} (inside : t.pos ≤ t.source.length)
    (eaten : t.eatWhitespaceAndComments = u) (empty : u.slice = []) :
    t.nextToken = some { u with current := ⟨.eofTok, 0, 0⟩ } := by
  have reached := Checked.eatFrom_inside t.source.length t inside
  rw [← Tokenizer.eatWhitespaceAndComments, eaten] at reached
  have ended : u.pos = u.source.length := by
    have length := congrArg List.length empty
    rw [Tokenizer.slice, List.length_drop, List.length_nil] at length
    rw [← reached.1] at reached
    omega
  rw [Tokenizer.nextToken, eaten]
  exact if_pos ended

end Shady.Slim
