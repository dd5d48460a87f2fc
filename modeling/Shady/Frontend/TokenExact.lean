import Shady.Frontend.TokenPieces

/-!
# When the tokenizer tiles its input

Whatever the source is, the tokens and what is skipped cut it into pieces, and every operator and
keyword is the longest of the table. The position is lost behind a block comment or a string with a
newline, and a string that is not closed is read past the end.
-/

set_option autoImplicit false

namespace Shady.Slim

/-! ## Runs -/

inductive Ending
  | endOfFile
  /-- The program ends with an error. -/
  | rejected
  | pastTerminator
  | unfinished
  deriving DecidableEq

/-- The states behind the calls of `shd_next_token` up to the end of the file. -/
def calls : Nat → Tokenizer → List Tokenizer × Ending
  | 0, _ => ([], .unfinished)
  | fuel + 1, t =>
      match Checked.nextToken t with
      | .error .untokenizable => ([], .rejected)
      | .error .pastTerminator => ([], .pastTerminator)
      | .ok t' =>
          if t'.current.tag = .eofTok then ([t'], .endOfFile)
          else (t' :: (calls fuel t').1, (calls fuel t').2)

/-- The tokenizer in front of its first call. -/
def start (source : List Char) : Tokenizer := ⟨source, 0, 1, 0, ⟨.eofTok, 0, 0⟩⟩

def run (source : List Char) : List Tokenizer × Ending := calls (source.length + 1) (start source)

/-- `shd_current_loc` -/
def currentLoc (t : Tokenizer) : Nat × Nat := (t.line, t.pos - t.lastLinePos)

/-! ## Tiles -/

/-- A piece that is skipped, and what is behind it. -/
inductive SkipPiece : List Char → List Char → Prop
  | newline (rest : List Char) : SkipPiece ['\n'] rest
  | blank (c : Char) (rest : List Char) : isWhitespace c → SkipPiece [c] rest
  | lineComment (body rest : List Char) : '\n' ∉ body → (∀ c, rest.head? = some c → c = '\n') →
      SkipPiece ('/' :: '/' :: body) rest
  | blockComment (body rest : List Char) : ¬ ['*', '/'] <:+: body ++ ['*'] →
      SkipPiece ('/' :: '*' :: (body ++ ['*', '/'])) rest
  | openComment (body : List Char) : ¬ ['*', '/'] <:+: body → SkipPiece ('/' :: '*' :: body) []

inductive Gap : List (List Char) → List Char → Prop
  | nil (rest : List Char) : Gap [] rest
  | cons (piece : List Char) (pieces : List (List Char)) (rest : List Char) :
      SkipPiece piece (pieces.flatten ++ rest) → Gap pieces rest → Gap (piece :: pieces) rest

/-- A call takes a gap and a token from the front of the text. -/
structure Call (t t' : Tokenizer) : Prop where
  source : t'.source = t.source
  tiles : ∃ pieces text, t.slice = pieces.flatten ++ text ++ t'.slice ∧
    t'.pos = t.pos + pieces.flatten.length + text.length ∧
    Gap pieces (text ++ t'.slice) ∧
    TokenText (t.pos + pieces.flatten.length) t'.current text t'.slice

/-- No token starts here. -/
structure Untokenizable (s : List Char) : Prop where
  nonempty : s ≠ []
  noWord : ¬ canStartIdentifier (charAt s 0)
  noNumber : ¬ isDigit (charAt s 0)
  noString : ¬ (charAt s 0 = '"' ∧ '"' ∈ s.tail)
  noSymbol : ∀ token ∈ tokenStrings, ¬ token.2.toList <+: s

/-- The line and the column are those of the text in front of the position. -/
def Located (t : Tokenizer) : Prop :=
  currentLoc t = (1 + (t.source.take t.pos).count '\n',
    ((t.source.take t.pos).reverse.takeWhile (· ≠ '\n')).length)

/-- The tokenizer cuts a source into tokens and gaps and knows where it is. -/
structure Tiles (source : List Char) : Prop where
  ends : (run source).2 = .endOfFile ∨ (run source).2 = .rejected
  tiles : List.IsChain Call (start source :: (run source).1)
  complete : (run source).2 = .endOfFile → ∃ t ∈ (run source).1.getLast?, t.slice = []
  rejects : (run source).2 = .rejected →
    ∃ t ∈ (start source :: (run source).1).getLast?, ∃ pieces rest,
      t.slice = pieces.flatten ++ rest ∧ Gap pieces rest ∧ Untokenizable rest
  located : ∀ t ∈ (run source).1, Located t

/-! ## Gaps -/

theorem commentSize_spec (s : List Char) :
    (∃ body rest, s = body ++ '*' :: '/' :: rest ∧ commentSize s = body.length + 2 ∧
      ¬ ['*', '/'] <:+: body ++ ['*']) ∨ (¬ ['*', '/'] <:+: s ∧ commentSize s = s.length) := by
  induction s using commentSize.induct with
  | case1 => exact Or.inr ⟨by decide, rfl⟩
  | case2 c => exact Or.inr ⟨by simp [List.infix_cons_iff], rfl⟩
  | case3 c d rest closes =>
      refine Or.inl ⟨[], rest, by rw [closes.1, closes.2]; rfl, ?_, by decide⟩
      rw [commentSize, if_pos closes]
      rfl
  | case4 c d rest open_ ih =>
      have apart : ∀ l : List Char, ¬ ['*', '/'] <+: c :: d :: l := by
        intro l isPrefix
        simp only [List.cons_prefix_cons] at isPrefix
        exact open_ ⟨isPrefix.1.symm, isPrefix.2.1.symm⟩
      rw [commentSize, if_neg open_]
      cases ih with
      | inl closed =>
          obtain ⟨body, behind, split, size, free⟩ := closed
          refine Or.inl ⟨c :: body, behind, by rw [split]; rfl, by rw [size]; rfl, ?_⟩
          rw [List.cons_append, List.infix_cons_iff]
          intro either
          cases either with
          | inl isPrefix =>
              cases body with
              | nil =>
                  simp only [List.nil_append, List.cons_prefix_cons] at isPrefix
                  exact absurd isPrefix.2.1 (by decide)
              | cons e body =>
                  have same : d = e := (List.cons.inj split).1
                  rw [← same] at isPrefix
                  exact apart _ isPrefix
          | inr inside => exact free inside
      | inr unclosed =>
          refine Or.inr ⟨fun found => ?_, by rw [unclosed.2]; rfl⟩
          cases List.infix_cons_iff.mp found with
          | inl isPrefix => exact apart _ isPrefix
          | inr inside => exact unclosed.1 inside

theorem skipPiece_spec {s : List Char} (more : 0 < skipSize s) :
    SkipPiece (s.take (skipSize s)) (s.drop (skipSize s)) := by
  cases s with
  | nil => exact absurd more (by decide)
  | cons c rest =>
      rw [skipSize] at more ⊢
      split_ifs at more ⊢ with blank line block
      · cases blank with
        | inl newline =>
            rw [newline]
            exact .newline rest
        | inr blank => exact .blank c rest blank
      · obtain ⟨more, slashes⟩ := List.head?_eq_some_iff.mp line.2
        have starts : (c :: rest).takeWhile (· ≠ '\n') =
            '/' :: '/' :: more.takeWhile (· ≠ '\n') := by
          rw [line.1, slashes]
          rfl
        have front : (c :: rest).takeWhile (· ≠ '\n') =
            (c :: rest).take ((c :: rest).takeWhile (· ≠ '\n')).length :=
          List.prefix_iff_eq_take.mp (List.takeWhile_prefix _)
        have behind := behind_takeWhile (· ≠ '\n') (c :: rest)
        rw [← front]
        generalize (c :: rest).drop ((c :: rest).takeWhile (· ≠ '\n')).length = after at behind ⊢
        rw [starts]
        refine .lineComment _ after (fun inside => ?_) (fun d found => ?_)
        · have other := List.mem_takeWhile_imp inside
          simp at other
        · exact not_not.mp (of_decide_eq_false (behind d found))
      · obtain ⟨more, star⟩ := List.head?_eq_some_iff.mp block.2.1
        rw [block.1, star, List.tail_cons, Nat.add_comm 2, List.take_succ_cons, List.take_succ_cons,
          List.drop_succ_cons, List.drop_succ_cons]
        cases commentSize_spec more with
        | inl closed =>
            obtain ⟨body, behind, split, size, free⟩ := closed
            have whole : more = (body ++ ['*', '/']) ++ behind := by
              rw [split]
              simp
            have length : commentSize more = (body ++ ['*', '/']).length := by
              rw [size]
              simp
            rw [length, whole, List.take_left, List.drop_left]
            exact .blockComment body behind free
        | inr unclosed =>
            rw [unclosed.2, List.take_length, List.drop_length]
            exact .openComment more unclosed.1
      · exact absurd more (Nat.lt_irrefl 0)

theorem gap_spec (s : List Char) : Gap (gap s) (afterGap s) := by
  induction s using gap.induct with
  | case1 s more ih =>
      have rest : afterGap s = afterGap (s.drop (skipSize s)) := by
        rw [afterGap, gap, dif_pos more, List.flatten_cons, List.length_append, List.length_take,
          Nat.min_eq_left (skipSize_le s), ← List.drop_drop]
        rfl
      rw [rest, gap, dif_pos more]
      refine .cons _ _ _ ?_ ih
      rw [gap_flatten]
      exact skipPiece_spec more.1
  | case2 s stop =>
      rw [gap, dif_neg stop]
      exact .nil _

/-! ## One call -/

theorem skipSize_of_newline (rest : List Char) : skipSize ('\n' :: rest) = 1 := rfl

theorem foldl_skip_line (pieces : List (List Char)) : ∀ t : Tokenizer,
    (pieces.foldl Tokenizer.skip t).line = t.line + pieces.count ['\n'] := by
  induction pieces with
  | nil => exact fun t => rfl
  | cons piece pieces ih =>
      intro t
      rw [List.foldl_cons, ih, List.count_cons, Tokenizer.skip]
      by_cases newline : piece = ['\n']
      · rw [if_pos newline, newline, beq_self_eq_true, if_pos rfl]
        dsimp only
        omega
      · rw [if_neg newline, if_neg (by simpa using newline), Nat.add_zero]

theorem TokenText.tag_ne_eof {start : Nat} {token : Token} {text rest : List Char}
    (read : TokenText start token text rest) (nonempty : text ≠ []) : token.tag ≠ .eofTok := by
  cases read with
  | eof => exact absurd rfl nonempty
  | fixed tag text rest inTable longest =>
      intro same
      dsimp only at same
      rw [same] at inTable
      have absent : ∀ token ∈ tokenStrings, token.1 ≠ .eofTok := by decide
      exact absent (.eofTok, text) inTable rfl
  | identifier text rest first all behind other => exact fun same => by cases same
  | number text rest first size =>
      dsimp only
      rw [numberTag]
      split_ifs <;> decide
  | string body rest free => exact fun same => by cases same

/-- What a call does that reads a token or the end. -/
structure Next (t t' : Tokenizer) (pieces : List (List Char)) : Prop where
  call : Call t t'
  pos : t'.pos = t.pos + pieces.flatten.length
  isPrefix : pieces.flatten <+: t.slice
  line : t'.line = t.line + (gap t.slice).count ['\n']
  lastLinePos : t'.lastLinePos = ((gap t.slice).foldl Tokenizer.skip t).lastLinePos
  eof : t'.current.tag = .eofTok → t'.slice = []
  moves : t'.current.tag ≠ .eofTok → pieces.flatten ≠ []
  text : ∃ text : Option (List Char), pieces = gap t.slice ++ text.toList ∧ ['\n'] ∉ text

theorem untokenizable_of_none {s : List Char} (nonempty : s ≠ []) (none : tokenText s = none) :
    Untokenizable s := by
  rw [tokenText] at none
  split_ifs at none with word number string
  refine ⟨nonempty, word, number, string, fun token inside isPrefix => ?_⟩
  rw [Option.map_eq_none_iff, fixedToken_none, Option.map_eq_none_iff] at none
  exact List.find?_eq_none.mp none token inside (List.isPrefixOf_iff_prefix.mpr isPrefix)

/-- A call takes its pieces, or rejects what it finds. -/
theorem nextToken_next {t : Tokenizer} (inside : t.pos ≤ t.source.length)
    (closed : ¬ Checked.Unclosed (afterGap t.slice)) :
    match callPieces t.slice with
    | some pieces => ∃ t', Checked.nextToken t = .ok t' ∧ Next t t' pieces
    | none => Checked.nextToken t = .error .untokenizable ∧ Untokenizable (afterGap t.slice) := by
  have eaten := foldl_skip (gap t.slice) t
  have line := foldl_skip_line (gap t.slice) t
  have slice := eat_slice t
  have checked := Checked.nextToken_eq inside (by rwa [slice])
  have whole := gap_flatten t.slice
  have gaps := gap_spec t.slice
  rw [← eatWhitespaceAndComments_eq] at eaten line
  rw [checked, callPieces]
  by_cases ended : afterGap t.slice = []
  · rw [if_pos ended, nextToken_eof inside rfl (by rw [slice, ended])]
    rw [ended] at gaps whole slice
    rw [List.append_nil] at whole
    refine ⟨_, rfl, ?_, eaten.2, by rw [whole], line, by rw [eatWhitespaceAndComments_eq],
      fun _ => slice, fun other => absurd rfl other, none, by simp, by simp⟩
    refine ⟨eaten.1, gap t.slice, [], ?_, ?_, ?_, ?_⟩
    · change _ = _ ++ [] ++ t.eatWhitespaceAndComments.slice
      rw [slice, whole, List.append_nil, List.append_nil]
    · rw [List.length_nil, Nat.add_zero]
      exact eaten.2
    · change Gap _ ([] ++ t.eatWhitespaceAndComments.slice)
      rw [slice]
      exact gaps
    · change TokenText _ _ _ t.eatWhitespaceAndComments.slice
      rw [slice]
      exact .eof
  · have reads := nextToken_reads rfl (by rwa [slice] : t.eatWhitespaceAndComments.slice ≠ [])
    rw [if_neg ended]
    rw [slice] at reads
    cases found : tokenText (afterGap t.slice) with
    | none =>
        rw [found] at reads
        dsimp only at reads
        rw [reads]
        exact ⟨rfl, untokenizable_of_none ended found⟩
    | some text =>
        rw [found] at reads
        obtain ⟨token, result, read, isPrefix, nonempty⟩ := reads
        rw [slice] at read isPrefix
        rw [result]
        have rest := List.prefix_iff_eq_append.mp isPrefix
        have behind : Tokenizer.slice { t.eatWhitespaceAndComments with
            pos := t.eatWhitespaceAndComments.pos + text.length
            current := token } = (afterGap t.slice).drop text.length := by
          rw [← slice, Tokenizer.slice, Tokenizer.slice, List.drop_drop]
        have flatten : (gap t.slice ++ [text]).flatten = (gap t.slice).flatten ++ text := by simp
        refine ⟨_, rfl, ?_, ?_, ?_, line, by rw [eatWhitespaceAndComments_eq], ?_, ?_, some text,
          rfl, ?_⟩
        · refine ⟨eaten.1, gap t.slice, text, ?_, ?_, ?_, ?_⟩
          · rw [behind, List.append_assoc, rest, whole]
          · dsimp only
            rw [eaten.2]
          · rw [behind, rest]
            exact gaps
          · rw [behind, ← eaten.2]
            exact read
        · dsimp only
          rw [flatten, List.length_append, eaten.2, Nat.add_assoc]
        · rw [flatten]
          exact ⟨(afterGap t.slice).drop text.length, by rw [List.append_assoc, rest, whole]⟩
        · exact fun same => absurd same (read.tag_ne_eof nonempty)
        · intro other empty
          rw [flatten] at empty
          exact nonempty (List.append_eq_nil_iff.mp empty).2
        · intro newline
          rw [Option.mem_some.mp newline] at isPrefix
          obtain ⟨more, split⟩ := isPrefix
          have none := skipSize_afterGap t.slice
          rw [← split, List.singleton_append, skipSize_of_newline] at none
          exact absurd none (by decide)

/-! ## Lines and columns -/

/-- A newline is a piece of its own. -/
def Plain (pieces : List (List Char)) : Prop := ∀ piece ∈ pieces, '\n' ∈ piece → piece = ['\n']

/-- There are as many newlines as such pieces just where there are no others. -/
theorem count_newlines (pieces : List (List Char)) :
    pieces.count ['\n'] ≤ pieces.flatten.count '\n' ∧
      (pieces.flatten.count '\n' = pieces.count ['\n'] ↔ Plain pieces) := by
  induction pieces with
  | nil => exact ⟨Nat.le_refl 0, fun _ piece inside => absurd inside List.not_mem_nil, fun _ => rfl⟩
  | cons piece pieces ih =>
      have one : (if piece = ['\n'] then 1 else 0) ≤ piece.count '\n' ∧
          (piece.count '\n' = (if piece = ['\n'] then 1 else 0) ↔ ('\n' ∈ piece → piece = ['\n'])) := by
        by_cases newline : piece = ['\n']
        · rw [if_pos newline, newline]
          decide
        · rw [if_neg newline]
          refine ⟨Nat.zero_le _, fun none inside => ?_, fun plain => ?_⟩
          · exact absurd (List.count_pos_iff.mpr inside) (by omega)
          · exact List.count_eq_zero.mpr fun inside => newline (plain inside)
      have cons : Plain (piece :: pieces) ↔ ('\n' ∈ piece → piece = ['\n']) ∧ Plain pieces :=
        List.forall_mem_cons
      have counted : (piece :: pieces).count ['\n'] =
          pieces.count ['\n'] + if piece = ['\n'] then 1 else 0 := by
        rw [List.count_cons]
        simp only [beq_iff_eq]
      rw [cons, ← one.2, ← ih.2, counted, List.flatten_cons, List.count_append]
      omega

/-- The position of the last newline is not behind the position. -/
structure Placed (t : Tokenizer) : Prop where
  inside : t.pos ≤ t.source.length
  ordered : t.lastLinePos ≤ t.pos

theorem take_skip {t : Tokenizer} {piece : List Char} (isPrefix : piece <+: t.slice) :
    t.source.take (t.pos + piece.length) = t.source.take t.pos ++ piece := by
  rw [List.take_add]
  exact congrArg (t.source.take t.pos ++ ·) (List.prefix_iff_eq_take.mp isPrefix).symm

theorem Placed.skip {t : Tokenizer} (placed : Placed t) {piece : List Char}
    (isPrefix : piece <+: t.slice) : Placed (t.skip piece) := by
  have length := isPrefix.length_le
  rw [Tokenizer.slice, List.length_drop] at length
  have inside := placed.inside
  have ordered := placed.ordered
  refine ⟨?_, ?_⟩
  · rw [t.skip_pos, t.skip_source]
    omega
  · rw [t.skip_pos, Tokenizer.skip]
    split_ifs with newline
    · rw [newline]
      exact Nat.le_refl _
    · dsimp only
      omega

/-- Behind a text without a newline the column has grown. -/
theorem Located.move {t t' : Tokenizer} (located : Located t) (placed : Placed t) {text : List Char}
    (isPrefix : text <+: t.slice) (free : '\n' ∉ text) (source : t'.source = t.source)
    (pos : t'.pos = t.pos + text.length) (line : t'.line = t.line)
    (last : t'.lastLinePos = t.lastLinePos) : Located t' := by
  have ordered := placed.ordered
  rw [Located, currentLoc, Prod.mk.injEq] at located
  have column : ((t.source.take t.pos ++ text).reverse.takeWhile (· ≠ '\n')).length =
      text.length + ((t.source.take t.pos).reverse.takeWhile (· ≠ '\n')).length := by
    rw [List.reverse_append, List.takeWhile_append_of_pos, List.length_append, List.length_reverse]
    intro c inside
    exact decide_eq_true fun newline => free (newline ▸ List.mem_reverse.mp inside)
  rw [Located, currentLoc, source, pos, line, last, take_skip isPrefix, List.count_append,
    List.count_eq_zero.mpr free, column, located.1, ← located.2, Prod.mk.injEq]
  omega

theorem Located.skip {t : Tokenizer} (located : Located t) (placed : Placed t) {piece : List Char}
    (isPrefix : piece <+: t.slice) (plain : '\n' ∈ piece → piece = ['\n']) :
    Located (t.skip piece) := by
  by_cases newline : piece = ['\n']
  · rw [newline] at isPrefix
    have taken : t.source.take (t.pos + 1) = t.source.take t.pos ++ ['\n'] := take_skip isPrefix
    rw [Located, currentLoc, Prod.mk.injEq] at located
    rw [Tokenizer.skip, if_pos newline, Located, currentLoc]
    dsimp only
    rw [taken, List.count_append, List.count_singleton_self, located.1, List.reverse_append,
      Nat.sub_self, Nat.add_assoc]
    rfl
  · have free : '\n' ∉ piece := fun inside => newline (plain inside)
    refine located.move placed isPrefix free (t.skip_source piece) (t.skip_pos piece) ?_ ?_
    · rw [t.skip_other newline]
    · rw [t.skip_other newline]

theorem foldl_skip_placed (pieces : List (List Char)) : ∀ t : Tokenizer, Placed t →
    pieces.flatten <+: t.slice → Placed (pieces.foldl Tokenizer.skip t) ∧
      (Located t → Plain pieces → Located (pieces.foldl Tokenizer.skip t)) := by
  induction pieces with
  | nil => exact fun t placed isPrefix => ⟨placed, fun located plain => located⟩
  | cons piece pieces ih =>
      intro t placed isPrefix
      rw [List.flatten_cons] at isPrefix
      obtain ⟨rest, slice⟩ := isPrefix
      have first : piece <+: t.slice := ⟨pieces.flatten ++ rest, by rw [← slice, List.append_assoc]⟩
      have behind : pieces.flatten <+: (t.skip piece).slice := by
        rw [t.skip_slice, ← slice, List.append_assoc, List.drop_left]
        exact List.prefix_append _ _
      have more := ih (t.skip piece) (placed.skip first) behind
      refine ⟨more.1, fun located plain => more.2 ?_ ?_⟩
      · exact located.skip placed first (plain piece List.mem_cons_self)
      · exact fun piece inside => plain piece (List.mem_cons_of_mem _ inside)

theorem gap_front (s : List Char) : (gap s).flatten <+: s := ⟨afterGap s, gap_flatten s⟩

theorem Next.slice {t t' : Tokenizer} {pieces : List (List Char)} (next : Next t t' pieces) :
    t'.slice = t.slice.drop pieces.flatten.length := by
  rw [Tokenizer.slice, Tokenizer.slice, next.call.source, next.pos, List.drop_drop]

theorem Next.placed {t t' : Tokenizer} {pieces : List (List Char)} (next : Next t t' pieces)
    (placed : Placed t) : Placed t' := by
  have eaten := foldl_skip (gap t.slice) t
  have ordered := (foldl_skip_placed (gap t.slice) t placed (gap_front _)).1.ordered
  have length := next.isPrefix.length_le
  have inside := placed.inside
  rw [Tokenizer.slice, List.length_drop] at length
  obtain ⟨text, split, _⟩ := next.text
  have longer : (gap t.slice).flatten.length ≤ pieces.flatten.length := by
    rw [split, List.flatten_append, List.length_append]
    exact Nat.le_add_right _ _
  refine ⟨?_, ?_⟩
  · rw [next.call.source, next.pos]
    omega
  · rw [next.lastLinePos, next.pos]
    rw [eaten.2] at ordered
    omega

/-- The position is kept just where no newline is hidden in a piece. -/
theorem Next.located_iff {t t' : Tokenizer} {pieces : List (List Char)} (next : Next t t' pieces)
    (placed : Placed t) (located : Located t) : Located t' ↔ Plain pieces := by
  obtain ⟨text, split, visible⟩ := next.text
  have counted : pieces.count ['\n'] = (gap t.slice).count ['\n'] := by
    rw [split, List.count_append, Nat.add_eq_left, List.count_eq_zero, Option.mem_toList]
    exact visible
  constructor
  · intro located'
    have before := congrArg Prod.fst located
    have after := congrArg Prod.fst located'
    dsimp only [currentLoc] at before after
    rw [next.call.source, next.pos, take_skip next.isPrefix, List.count_append, next.line,
      before] at after
    refine (count_newlines pieces).2.mp ?_
    rw [counted]
    omega
  · intro plain
    have plainGap : Plain (gap t.slice) := fun piece inside =>
      plain piece (by rw [split]; exact List.mem_append_left _ inside)
    have skipped := foldl_skip_placed (gap t.slice) t placed (gap_front _)
    have eaten := foldl_skip (gap t.slice) t
    have line := foldl_skip_line (gap t.slice) t
    have locatedGap := skipped.2 located plainGap
    have slice : ((gap t.slice).foldl Tokenizer.skip t).slice = afterGap t.slice := by
      rw [← eatWhitespaceAndComments_eq, eat_slice]
    have isPrefix : (gap t.slice).flatten ++ text.toList.flatten <+:
        (gap t.slice).flatten ++ afterGap t.slice := by
      rw [gap_flatten, ← List.flatten_append, ← split]
      exact next.isPrefix
    have front : text.toList.flatten <+: ((gap t.slice).foldl Tokenizer.skip t).slice := by
      rw [slice]
      exact (List.prefix_append_right_inj _).mp isPrefix
    refine locatedGap.move skipped.1 front (fun inside => ?_) ?_ ?_ ?_ ?_
    · cases text with
      | none => exact absurd inside List.not_mem_nil
      | some text =>
          have read : text ∈ pieces := by
            rw [split]
            exact List.mem_append_right _ List.mem_cons_self
          have newline := plain text read (by simpa using inside)
          exact visible (by rw [newline]; rfl)
    · rw [next.call.source, eaten.1]
    · rw [next.pos, eaten.2, split, List.flatten_append, List.length_append, Nat.add_assoc]
    · rw [next.line, line]
    · exact next.lastLinePos

/-! ## Runs of calls -/

theorem Reached.head {source s : List Char} : Reached source s ↔
    s = source ∨ ∃ pieces, callPieces source = some pieces ∧
      Reached (source.drop pieces.flatten.length) s := by
  constructor
  · intro reached
    induction reached with
    | start => exact Or.inl rfl
    | call s pieces reached taken ih =>
        cases ih with
        | inl same =>
            rw [same] at taken ⊢
            exact Or.inr ⟨pieces, taken, .start⟩
        | inr later =>
            obtain ⟨first, firstTaken, reached⟩ := later
            exact Or.inr ⟨first, firstTaken, .call s pieces reached taken⟩
  · intro either
    cases either with
    | inl same =>
        rw [same]
        exact .start
    | inr later =>
        obtain ⟨first, firstTaken, reached⟩ := later
        have next := Reached.call source first .start firstTaken
        generalize source.drop first.flatten.length = behind at reached next
        induction reached with
        | start => exact next
        | call s pieces _ taken ih => exact .call s pieces ih taken

theorem afterGap_nil : afterGap [] = [] := List.drop_nil

theorem callPieces_nil : callPieces [] = some [] := by
  have none : gap [] = [] := by
    rw [gap]
    exact dif_neg fun both => both.2 rfl
  rw [callPieces, if_pos afterGap_nil, none]

theorem Reached.of_nil {s : List Char} (reached : Reached [] s) : s = [] := by
  induction reached with
  | start => rfl
  | call s pieces reached taken ih => rw [ih, List.drop_nil]

/-- What the calls from a state on do. -/
structure Outcome (t : Tokenizer) (result : List Tokenizer × Ending) : Prop where
  finished : result.2 ≠ .unfinished
  tiles : List.IsChain Call (t :: result.1)
  complete : result.2 = .endOfFile → ∃ last ∈ result.1.getLast?, last.slice = []
  rejects : result.2 = .rejected → ∃ last ∈ (t :: result.1).getLast?, ∃ pieces rest,
    last.slice = pieces.flatten ++ rest ∧ Gap pieces rest ∧ Untokenizable rest
  faults : result.2 = .pastTerminator ↔
    ∃ s, Reached t.slice s ∧ Checked.Unclosed (afterGap s)
  located : Located t → result.2 ≠ .pastTerminator → ((∀ last ∈ result.1, Located last) ↔
    ∀ s pieces, Reached t.slice s → callPieces s = some pieces → Plain pieces)

theorem calls_fault {t : Tokenizer} (unclosed : Checked.Unclosed (afterGap t.slice)) :
    Outcome t ([], .pastTerminator) := by
  constructor
  case finished => exact fun other => nomatch other
  case tiles => exact .singleton t
  case complete => exact fun other => nomatch other
  case rejects => exact fun other => nomatch other
  case faults => exact ⟨fun _ => ⟨_, .start, unclosed⟩, fun _ => rfl⟩
  case located => exact fun _ fine => absurd rfl fine

theorem calls_rejected {t : Tokenizer} (taken : callPieces t.slice = none)
    (closed : ¬ Checked.Unclosed (afterGap t.slice)) (unknown : Untokenizable (afterGap t.slice)) :
    Outcome t ([], .rejected) := by
  have only : ∀ s, Reached t.slice s → s = t.slice := by
    intro s reached
    cases Reached.head.mp reached with
    | inl same => exact same
    | inr later =>
        obtain ⟨pieces, some_pieces, _⟩ := later
        rw [taken] at some_pieces
        exact nomatch some_pieces
  constructor
  case finished => decide
  case tiles => exact .singleton t
  case complete => exact fun ended => nomatch ended
  case rejects =>
    exact fun _ => ⟨t, rfl, gap t.slice, afterGap t.slice, (gap_flatten _).symm, gap_spec _, unknown⟩
  case faults =>
    refine ⟨fun fault => (nomatch fault), fun found => ?_⟩
    obtain ⟨s, reached, unclosed⟩ := found
    rw [only s reached] at unclosed
    exact absurd unclosed closed
  case located =>
    refine fun _ _ => ⟨fun _ s pieces reached some_pieces => ?_, fun _ last inside => ?_⟩
    · rw [only s reached, taken] at some_pieces
      exact nomatch some_pieces
    · exact absurd inside List.not_mem_nil

theorem calls_ended {t t' : Tokenizer} {pieces : List (List Char)} (placed : Placed t)
    (taken : callPieces t.slice = some pieces) (closed : ¬ Checked.Unclosed (afterGap t.slice))
    (next : Next t t' pieces) (ended : t'.current.tag = .eofTok) :
    Outcome t ([t'], .endOfFile) := by
  have empty := next.eof ended
  have only : ∀ s, Reached t.slice s → s = t.slice ∨ s = [] := by
    intro s reached
    cases Reached.head.mp reached with
    | inl same => exact Or.inl same
    | inr later =>
        obtain ⟨others, some_pieces, reached⟩ := later
        rw [taken] at some_pieces
        rw [← Option.some.inj some_pieces, ← next.slice, empty] at reached
        exact Or.inr reached.of_nil
  constructor
  case finished => exact fun other => nomatch other
  case tiles => exact List.isChain_cons_cons.mpr ⟨next.call, .singleton t'⟩
  case complete => exact fun _ => ⟨t', rfl, empty⟩
  case rejects => exact fun rejected => nomatch rejected
  case faults =>
    refine ⟨fun fault => (nomatch fault), fun found => ?_⟩
    obtain ⟨s, reached, unclosed⟩ := found
    cases only s reached with
    | inl same =>
        rw [same] at unclosed
        exact absurd unclosed closed
    | inr none =>
        rw [none, afterGap_nil] at unclosed
        exact nomatch unclosed.1
  case located =>
    intro located _
    rw [List.forall_mem_singleton, next.located_iff placed located]
    refine ⟨fun plain s others reached some_pieces => ?_, fun plain => plain _ pieces .start taken⟩
    cases only s reached with
    | inl same =>
        rw [same, taken] at some_pieces
        rwa [← Option.some.inj some_pieces]
    | inr none =>
        rw [none, callPieces_nil] at some_pieces
        rw [← Option.some.inj some_pieces]
        exact fun piece inside => absurd inside List.not_mem_nil

theorem calls_continued {t t' : Tokenizer} {pieces : List (List Char)}
    {rest : List Tokenizer × Ending} (placed : Placed t)
    (taken : callPieces t.slice = some pieces) (closed : ¬ Checked.Unclosed (afterGap t.slice))
    (next : Next t t' pieces) (outcome : Outcome t' rest) :
    Outcome t (t' :: rest.1, rest.2) := by
  have reached_iff : ∀ s, Reached t.slice s ↔ s = t.slice ∨ Reached t'.slice s := by
    intro s
    rw [Reached.head, next.slice]
    refine or_congr Iff.rfl ⟨fun later => ?_, fun later => ⟨pieces, taken, later⟩⟩
    obtain ⟨others, some_pieces, reached⟩ := later
    rw [taken] at some_pieces
    rwa [Option.some.inj some_pieces]
  constructor
  case finished => exact outcome.finished
  case tiles => exact List.isChain_cons_cons.mpr ⟨next.call, outcome.tiles⟩
  case complete =>
    intro ended
    obtain ⟨last, isLast, empty⟩ := outcome.complete ended
    refine ⟨last, ?_, empty⟩
    rw [List.getLast?_cons, isLast]
    rfl
  case rejects =>
    intro rejected
    rw [List.getLast?_cons_cons]
    exact outcome.rejects rejected
  case faults =>
    rw [outcome.faults]
    refine ⟨fun found => ?_, fun found => ?_⟩
    · obtain ⟨s, reached, unclosed⟩ := found
      exact ⟨s, (reached_iff s).mpr (Or.inr reached), unclosed⟩
    · obtain ⟨s, reached, unclosed⟩ := found
      cases (reached_iff s).mp reached with
      | inl same =>
          rw [same] at unclosed
          exact absurd unclosed closed
      | inr later => exact ⟨s, later, unclosed⟩
  case located =>
    intro located fine
    have here := next.located_iff placed located
    rw [List.forall_mem_cons, here]
    constructor
    · intro both s others reached some_pieces
      cases (reached_iff s).mp reached with
      | inl same =>
          rw [same, taken] at some_pieces
          rw [← Option.some.inj some_pieces]
          exact both.1
      | inr later =>
          exact (outcome.located (here.mpr both.1) fine).mp both.2 s others later some_pieces
    · intro plain
      have plainHere := plain _ pieces .start taken
      refine ⟨plainHere, (outcome.located (here.mpr plainHere) fine).mpr ?_⟩
      exact fun s others later => plain s others ((reached_iff s).mpr (Or.inr later))

theorem calls_outcome (fuel : Nat) : ∀ t : Tokenizer, Placed t → t.slice.length < fuel →
    Outcome t (calls fuel t) := by
  induction fuel with
  | zero => exact fun t placed enough => absurd enough (Nat.not_lt_zero _)
  | succ fuel ih =>
      intro t placed enough
      rw [calls]
      by_cases unclosed : Checked.Unclosed (afterGap t.slice)
      · have fault := Checked.nextToken_unclosed placed.inside (by rwa [eat_slice])
        rw [fault]
        exact calls_fault unclosed
      have next := nextToken_next placed.inside unclosed
      cases taken : callPieces t.slice with
      | none =>
          rw [taken] at next
          rw [next.1]
          exact calls_rejected taken unclosed next.2
      | some pieces =>
          rw [taken] at next
          obtain ⟨t', result, next⟩ := next
          rw [result]
          dsimp only
          by_cases ended : t'.current.tag = .eofTok
          · rw [if_pos ended]
            exact calls_ended placed taken unclosed next ended
          · rw [if_neg ended]
            have moves := List.length_pos_iff.mpr (next.moves ended)
            have le := next.isPrefix.length_le
            have shorter : t'.slice.length < fuel := by
              rw [next.slice, List.length_drop]
              omega
            exact calls_continued placed taken unclosed next (ih t' (next.placed placed) shorter)

/-- A newline in a block comment or a string, and a string without an end, are the only inputs on
which the tokenizer loses its place. -/
theorem tiles_iff (source : List Char) : Tiles source ↔
    (∀ s, Reached source s → ¬ Checked.Unclosed (afterGap s)) ∧
      ∀ s pieces, Reached source s → callPieces s = some pieces → Plain pieces := by
  have outcome := calls_outcome (source.length + 1) (start source)
    ⟨Nat.zero_le _, Nat.le_refl 0⟩ (Nat.lt_succ_self _)
  have located : Located (start source) := rfl
  constructor
  · intro tiles
    have fine : (run source).2 ≠ .pastTerminator := by
      intro fault
      have ends := tiles.ends
      rw [fault] at ends
      simp at ends
    refine ⟨fun s reached unclosed => fine (outcome.faults.mpr ⟨s, reached, unclosed⟩), ?_⟩
    exact (outcome.located located fine).mp tiles.located
  · intro both
    have fine : (run source).2 ≠ .pastTerminator := by
      intro fault
      obtain ⟨s, reached, unclosed⟩ := outcome.faults.mp fault
      exact both.1 s reached unclosed
    constructor
    case ends =>
      have finished := outcome.finished
      change (run source).2 ≠ _ at finished
      cases ending : (run source).2 with
      | endOfFile => exact Or.inl rfl
      | rejected => exact Or.inr rfl
      | pastTerminator => exact absurd ending fine
      | unfinished => exact absurd ending finished
    case tiles => exact outcome.tiles
    case complete => exact outcome.complete
    case rejects => exact outcome.rejects
    case located => exact (outcome.located located fine).mpr both.2

/-- A newline in a block comment is not counted. -/
theorem tiles_blockComment : ¬ Tiles ['/', '*', '\n', '*', '/', 'x'] := by
  intro tiles
  have lines : ∀ t ∈ (run ['/', '*', '\n', '*', '/', 'x']).1,
      t.line = 1 + (t.source.take t.pos).count '\n' :=
    fun t inside => congrArg Prod.fst (tiles.located t inside)
  exact absurd lines (by decide +kernel)

end Shady.Slim
