import Shady.Common.EscapeCodes
import Shady.Frontend.Token
import Shady.Library.CLiteral

/-!
# String literals

A string is printed as a literal of Slim, which is read again as a token and then as a node, and
the C backend writes it as a literal of C.
-/

set_option autoImplicit false

namespace Shady.Slim

/-! ## Printing and parsing -/

/-- The switch of `print_string_lit` -/
def printedChar (c : Char) : List Char :=
  if c = '\x07' then ['\\', 'a']
  else if c = '\x08' then ['\\', 'b']
  else if c = '\x0c' then ['\\', 'f']
  else if c = '\r' then ['\\', 'r']
  else if c = '\n' then ['\\', 'n']
  else if c = '\t' then ['\\', 't']
  else if c = '\x0b' then ['\\', 'v']
  else if c = '\\' then ['\\', '\\']
  else if c = '\'' then ['\\', '\'']
  else if c = '"' then ['\\', '"']
  else [c]

/-- `print_string_lit` -/
def printStringLit (p : Printer) (string : CStr) : Printer :=
  (string.chars.foldl (fun p c => p.print (printedChar c)) (p.print ['"'])).print ['"']

/-- The string of the `StringLiteral` node that `accept_value` makes of the current token. -/
def unescapedString (t : Tokenizer) : Option (List Char) :=
  let tok := t.current
  applyEscapeCodes ((t.source.drop tok.start).take (tok.end_ - tok.start))

/-- What `c_emit_value_` writes for a `StringLiteral` node. -/
def emitStringLiteral (string : CStr) : List Char :=
  '"' :: (string.chars.flatMap fun c => if c = '\n' then ['\\', 'n'] else [c]) ++ ['"']

/-! ## The printed text -/

theorem printedChar_eq (c : Char) : printedChar c = escapeSeqs.encodeChar c := by
  unfold printedChar
  split_ifs with h1 h2 h3 h4 h5 h6 h7 h8 h9 h10
  case neg =>
    have plain : escapeSeqs.codeOf c = none := by
      rw [Escapes.Table.codeOf, List.lookup_eq_none_iff]
      simp [escapeSeqs, h1, h2, h3, h4, h5, h6, h7, h8, h9, h10]
    rw [Escapes.Table.encodeChar, plain]
  all_goals
    subst c
    decide

/-- The literal is the encoded string between quotes, whatever the indentation. -/
theorem printStringLit_output (p : Printer) (s : CStr) :
    (printStringLit p s).output = p.output ++ ('"' :: escapeSeqs.encode s.chars ++ ['"']) := by
  have printed : ∀ (src : List Char) (p : Printer),
      src.foldl (fun p c => p.print (printedChar c)) p = p.print (escapeSeqs.encode src) := by
    intro src
    induction src with
    | nil => intro p; exact p.print_nil.symm
    | cons c src ih =>
        intro p
        rw [List.foldl_cons, ih, printedChar_eq, Escapes.Table.encode_cons, p.print_append]
  have flat : '\n' ∉ ['"'] ++ escapeSeqs.encode s.chars ++ ['"'] := by
    intro member
    have inside : '\n' ∈ escapeSeqs.encode s.chars := by simpa using member
    exact newline_not_mem_encode s.chars inside
  rw [printStringLit, printed, p.print_append, p.print_append, p.print_plain (Or.inr flat)]
  rfl

/-! ## The token -/

/-- A string ends with the first quote, whatever comes before it. -/
theorem nextToken_string {t : Tokenizer} {u v : List Char} (next : t.slice = '"' :: (u ++ '"' :: v))
    (unquoted : '"' ∉ u) :
    t.nextToken = some (t.accept .stringLitTok (t.pos + 1) u.length (u.length + 2)) := by
  have stays := eatWhitespaceAndComments_stays next (by decide)
  have inside := pos_lt_of_slice next
  have differs : ∀ c ∈ u, decide (c ≠ '"') = true := fun c member =>
    decide_eq_true fun same => unquoted (same ▸ member)
  have size : stringSize t.slice = u.length := by
    rw [stringSize, scan, next, List.cons_append, List.drop_succ_cons, List.drop_zero, List.drop_zero,
      List.append_assoc, List.cons_append, List.takeWhile_append_of_pos differs,
      List.takeWhile_cons_of_neg (by simp), List.append_nil, Nat.zero_add]
  have closing : charAt t.slice (u.length + 1) = '"' := by
    rw [next]
    exact charAt_append ('"' :: u) v '"'
  have first : charAt t.slice 0 = '"' := by
    rw [next]
    rfl
  rw [Tokenizer.nextToken, stays, if_neg inside.ne]
  simp only [first, size, closing]
  rfl

/-- Escape codes keep the quotes of a string. -/
theorem quote_mem_encode (s : List Char) : '"' ∈ escapeSeqs.encode s ↔ '"' ∈ s := by
  have quoted : ∀ c, '"' ∈ escapeSeqs.encodeChar c ↔ c = '"' := by
    intro c
    constructor
    · intro member
      cases coded : escapeSeqs.codeOf c with
      | some code =>
          have listed := escapeSeqs.codeOf_eq_some.mp coded
          rw [Escapes.Table.encodeChar, coded] at member
          have quote : '"' = code := by
            simpa [escapeSeqs] using member
          rw [← quote] at listed
          simpa [escapeSeqs] using listed
      | none =>
          rw [Escapes.Table.encodeChar, coded] at member
          exact (List.mem_singleton.mp member).symm
    · intro same
      rw [same]
      decide
  rw [Escapes.Table.encode, List.mem_flatMap]
  constructor
  · rintro ⟨c, member, inside⟩
    rw [← (quoted c).mp inside]
    exact member
  · intro member
    exact ⟨'"', member, (quoted '"').mpr rfl⟩

/-! ## The literal of C -/

/-- The text between the quotes. -/
def emittedBody (s : List Char) : List Char := s.flatMap fun c => if c = '\n' then ['\\', 'n'] else [c]

theorem emittedBody_newline (s : List Char) :
    emittedBody ('\n' :: s) = '\\' :: 'n' :: emittedBody s := rfl

theorem emittedBody_cons {c : Char} (other : c ≠ '\n') (s : List Char) :
    emittedBody (c :: s) = c :: emittedBody s := by
  rw [emittedBody, List.flatMap_cons, if_neg other]
  rfl

/-- The rest of a text after some of its characters is the text of no longer a string. -/
theorem suffix_emittedBody {s r : List Char} (suffix : r <:+ emittedBody s ++ ['"']) :
    r = [] ∨ ∃ s', r = emittedBody s' ++ ['"'] ∧ s'.length ≤ s.length := by
  induction s with
  | nil =>
      cases List.suffix_cons_iff.mp suffix with
      | inl whole => exact Or.inr ⟨[], whole, le_rfl⟩
      | inr later => exact Or.inl (List.suffix_nil.mp later)
  | cons c s ih =>
      have shorter : r <:+ emittedBody s ++ ['"'] →
          r = [] ∨ ∃ s', r = emittedBody s' ++ ['"'] ∧ s'.length ≤ (c :: s).length := by
        intro later
        cases ih later with
        | inl empty => exact Or.inl empty
        | inr found =>
            obtain ⟨s', same, le⟩ := found
            exact Or.inr ⟨s', same, Nat.le_succ_of_le le⟩
      by_cases newline : c = '\n'
      · rw [newline, emittedBody_newline] at suffix
        cases List.suffix_cons_iff.mp suffix with
        | inl whole =>
            refine Or.inr ⟨c :: s, ?_, le_rfl⟩
            rw [newline, emittedBody_newline]
            exact whole
        | inr later =>
            cases List.suffix_cons_iff.mp later with
            | inl code =>
                refine Or.inr ⟨'n' :: s, ?_, le_rfl⟩
                rw [emittedBody_cons (by decide)]
                exact code
            | inr rest => exact shorter rest
      · rw [emittedBody_cons newline] at suffix
        cases List.suffix_cons_iff.mp suffix with
        | inl whole =>
            refine Or.inr ⟨c :: s, ?_, le_rfl⟩
            rw [emittedBody_cons newline]
            exact whole
        | inr later => exact shorter later

/-- A literal never stands for more characters than the string has. -/
theorem length_sChars_le (fuel : Nat) : ∀ {s out : List Char},
    CLiteral.sChars fuel (emittedBody s ++ ['"']) = some out → out.length ≤ s.length := by
  induction fuel with
  | zero =>
      intro s out read
      exact nomatch read
  | succ fuel ih =>
      intro s out read
      have shorter : ∀ {d : Char} {s' : List Char}, s'.length < s.length →
          (CLiteral.sChars fuel (emittedBody s' ++ ['"'])).map (d :: ·) = some out →
            out.length ≤ s.length := by
        intro d s' less mapped
        obtain ⟨rest, found, same⟩ := Option.map_eq_some_iff.mp mapped
        have le := ih found
        rw [← same, List.length_cons]
        omega
      cases s with
      | nil =>
          cases read
          exact le_rfl
      | cons c s =>
          by_cases newline : c = '\n'
          · rw [newline, emittedBody_newline] at read
            exact shorter (Nat.lt_succ_self _) read
          · rw [emittedBody_cons newline, List.cons_append, CLiteral.sChars] at read
            by_cases quote : c = '"'
            · rw [if_pos quote, if_neg (by simp)] at read
              exact nomatch read
            · rw [if_neg quote, if_neg newline] at read
              by_cases escaping : c = '\\'
              · rw [if_pos escaping] at read
                obtain ⟨⟨d, rest⟩, sequence, mapped⟩ := Option.bind_eq_some_iff.mp read
                obtain ⟨e, more, shape, suffix⟩ := CLiteral.escapeSequence_suffix sequence
                have within : rest <:+ emittedBody s ++ ['"'] := by
                  rw [shape]
                  exact suffix.trans (List.suffix_cons e more)
                cases suffix_emittedBody within with
                | inl empty =>
                    rw [empty] at mapped
                    cases fuel <;> exact nomatch mapped
                | inr found =>
                    obtain ⟨s', same, le⟩ := found
                    rw [same] at mapped
                    exact shorter (Nat.lt_succ_of_le le) mapped
              · rw [if_neg escaping] at read
                exact shorter (Nat.lt_succ_self _) read

/-- A literal that stands for the string has no quote and no backslash in it. -/
theorem plain_of_sChars {s : List Char} : ∀ {fuel : Nat},
    CLiteral.sChars fuel (emittedBody s ++ ['"']) = some s → '"' ∉ s ∧ '\\' ∉ s := by
  induction s with
  | nil =>
      intro fuel _
      exact ⟨List.not_mem_nil, List.not_mem_nil⟩
  | cons c s ih =>
      intro fuel read
      have later : ∀ {fuel : Nat}, c ≠ '"' → c ≠ '\\' →
          (CLiteral.sChars fuel (emittedBody s ++ ['"'])).map (c :: ·) = some (c :: s) →
            '"' ∉ c :: s ∧ '\\' ∉ c :: s := by
        intro fuel quote escaping mapped
        obtain ⟨rest, found, same⟩ := Option.map_eq_some_iff.mp mapped
        cases same
        have plain := ih found
        simp only [List.mem_cons, not_or]
        exact ⟨⟨quote.symm, plain.1⟩, ⟨escaping.symm, plain.2⟩⟩
      cases fuel with
      | zero => exact nomatch read
      | succ fuel =>
          by_cases newline : c = '\n'
          · subst newline
            rw [emittedBody_newline] at read
            exact later (by decide) (by decide) read
          · rw [emittedBody_cons newline, List.cons_append, CLiteral.sChars] at read
            by_cases quote : c = '"'
            · rw [if_pos quote, if_neg (by simp)] at read
              exact nomatch read
            · rw [if_neg quote, if_neg newline] at read
              by_cases escaping : c = '\\'
              · exfalso
                rw [if_pos escaping] at read
                obtain ⟨⟨d, rest⟩, sequence, mapped⟩ := Option.bind_eq_some_iff.mp read
                obtain ⟨out, found, same⟩ := Option.map_eq_some_iff.mp mapped
                cases same
                -- a newline behind the backslash is read as the letter of its code
                cases s with
                | nil =>
                    cases sequence
                    cases fuel <;> exact nomatch found
                | cons c' s =>
                    by_cases newline' : c' = '\n'
                    · subst newline'
                      rw [emittedBody_newline] at sequence
                      cases sequence
                      cases fuel with
                      | zero => exact nomatch found
                      | succ fuel =>
                          obtain ⟨out, -, same⟩ := Option.map_eq_some_iff.mp found
                          simp at same
                    · rw [emittedBody_cons newline', List.cons_append] at sequence
                      obtain ⟨e, more, shape, suffix⟩ := CLiteral.escapeSequence_suffix sequence
                      cases shape
                      cases suffix_emittedBody suffix with
                      | inl empty =>
                          rw [empty] at found
                          cases fuel <;> exact nomatch found
                      | inr shorter =>
                          obtain ⟨s', same, le⟩ := shorter
                          rw [same] at found
                          have length := length_sChars_le fuel found
                          rw [List.length_cons] at length
                          omega
              · rw [if_neg escaping] at read
                exact later quote escaping read

theorem sChars_of_plain {s : List Char} : ∀ {fuel : Nat}, (emittedBody s).length < fuel →
    '"' ∉ s → '\\' ∉ s → CLiteral.sChars fuel (emittedBody s ++ ['"']) = some s := by
  induction s with
  | nil =>
      intro fuel enough _ _
      cases fuel with
      | zero => exact absurd enough (Nat.not_lt_zero _)
      | succ fuel => rfl
  | cons c s ih =>
      intro fuel enough quotes escapes
      have quote : c ≠ '"' := fun same => quotes (same ▸ List.mem_cons_self)
      have escaping : c ≠ '\\' := fun same => escapes (same ▸ List.mem_cons_self)
      have quotes' : '"' ∉ s := fun member => quotes (List.mem_cons_of_mem _ member)
      have escapes' : '\\' ∉ s := fun member => escapes (List.mem_cons_of_mem _ member)
      cases fuel with
      | zero => exact absurd enough (Nat.not_lt_zero _)
      | succ fuel =>
          by_cases newline : c = '\n'
          · subst newline
            rw [emittedBody_newline] at enough ⊢
            have rest := @ih fuel (by simp at enough; omega) quotes' escapes'
            exact congrArg (Option.map ('\n' :: ·)) rest
          · rw [emittedBody_cons newline] at enough ⊢
            have rest := @ih fuel (by simpa using enough) quotes' escapes'
            rw [List.cons_append, CLiteral.sChars, if_neg quote, if_neg newline, if_neg escaping, rest]
            rfl

theorem ne_newline_of_trigraph {c d : Char} (found : CLiteral.trigraph c = some d) :
    c ≠ '\n' ∧ d ≠ '\n' := by
  unfold CLiteral.trigraph at found
  split at found <;> cases found <;> exact ⟨by decide, by decide⟩

/-- The first character of a string is emitted by itself where it does not begin a trigraph. -/
theorem replaceTrigraphs_emittedBody_cons {a : Char} {s : List Char}
    (lone : ∀ c rest, a = '?' → s = '?' :: c :: rest → CLiteral.trigraph c = none) :
    CLiteral.replaceTrigraphs (emittedBody (a :: s) ++ ['"']) =
      emittedBody [a] ++ CLiteral.replaceTrigraphs (emittedBody s ++ ['"']) := by
  by_cases newline : a = '\n'
  · subst newline
    rw [emittedBody_newline, List.cons_append, List.cons_append,
      CLiteral.replaceTrigraphs_cons (fun c rest same => absurd same (by decide)),
      CLiteral.replaceTrigraphs_cons (fun c rest same => absurd same (by decide))]
    rfl
  · rw [emittedBody_cons newline, List.cons_append, CLiteral.replaceTrigraphs_cons]
    · rw [emittedBody_cons newline]
      rfl
    · intro c rest mark shape
      cases s with
      | nil => exact absurd shape (by simp [emittedBody])
      | cons b s =>
          by_cases newline' : b = '\n'
          · subst newline'
            simp [emittedBody_newline] at shape
          · rw [emittedBody_cons newline', List.cons_append, List.cons.injEq] at shape
            cases s with
            | nil =>
                have quote : '"' = c := (List.cons.inj shape.2).1
                rw [← quote]
                rfl
            | cons e s =>
                by_cases newline'' : e = '\n'
                · subst newline''
                  have backslash : '\\' = c := (List.cons.inj shape.2).1
                  rw [← backslash]
                  rfl
                · rw [emittedBody_cons newline'', List.cons_append] at shape
                  have same := (List.cons.inj shape.2).1
                  rw [← same]
                  exact lone e s mark (by rw [shape.1])

/-- Trigraphs in the literal are those in the string. -/
theorem replaceTrigraphs_emittedBody (s : List Char) :
    CLiteral.replaceTrigraphs (emittedBody s ++ ['"']) =
      emittedBody (CLiteral.replaceTrigraphs s) ++ ['"'] := by
  have join : ∀ (a : Char) (s : List Char), emittedBody [a] ++ emittedBody s = emittedBody (a :: s) := by
    intro a s
    rw [emittedBody, emittedBody, emittedBody, ← List.flatMap_append]
    rfl
  induction s using CLiteral.replaceTrigraphs.induct with
  | case1 a b c rest d found ih =>
      have marks : a = '?' ∧ b = '?' := by
        by_contra others
        rw [if_neg others] at found
        cases found
      have means : CLiteral.trigraph c = some d := by
        rw [if_pos marks] at found
        exact found
      have plain := ne_newline_of_trigraph means
      rw [CLiteral.replaceTrigraphs, found, marks.1, marks.2, emittedBody_cons (by decide),
        emittedBody_cons (by decide), emittedBody_cons plain.1, List.cons_append, List.cons_append,
        List.cons_append, CLiteral.replaceTrigraphs, if_pos ⟨rfl, rfl⟩, means]
      simp only []
      rw [emittedBody_cons plain.2, List.cons_append, ih]
  | case2 a b c rest found ih =>
      rw [replaceTrigraphs_emittedBody_cons, ih, CLiteral.replaceTrigraphs, found]
      · exact (List.append_assoc _ _ _).symm.trans (congrArg (· ++ ['"']) (join a _))
      · intro e more mark shape
        cases shape
        rw [if_pos ⟨mark, rfl⟩] at found
        exact found
  | case3 s short =>
      cases s with
      | nil => rfl
      | cons a s =>
          cases s with
          | nil =>
              rw [replaceTrigraphs_emittedBody_cons]
              · exact (List.append_assoc _ _ _).symm.trans (congrArg (· ++ ['"']) (join a []))
              · intro c rest mark shape
                cases shape
          | cons b s =>
              cases s with
              | nil =>
                  rw [replaceTrigraphs_emittedBody_cons, replaceTrigraphs_emittedBody_cons]
                  · change emittedBody [a] ++ (emittedBody [b] ++ ['"']) = emittedBody [a, b] ++ ['"']
                    rw [← List.append_assoc, join]
                  · intro c rest mark shape
                    cases shape
                  · intro c rest mark shape
                    cases shape
              | cons c rest => exact (short a b c rest rfl).elim

/-- The literal of C stands for the string if and only if it has no quotes, no backslashes and no
trigraphs. -/
theorem value_emitStringLiteral (s : CStr) :
    CLiteral.value (emitStringLiteral s) = some s.chars ↔
      '"' ∉ s.chars ∧ '\\' ∉ s.chars ∧ CLiteral.NoTrigraph s.chars := by
  have text : CLiteral.replaceTrigraphs (emitStringLiteral s) =
      '"' :: (emittedBody (CLiteral.replaceTrigraphs s.chars) ++ ['"']) := by
    have body : emitStringLiteral s = '"' :: (emittedBody s.chars ++ ['"']) := rfl
    rw [body, CLiteral.replaceTrigraphs_cons (fun c rest same => absurd same (by decide)),
      replaceTrigraphs_emittedBody]
  simp only [CLiteral.value, text]
  constructor
  · intro same
    have none_ : CLiteral.NoTrigraph s.chars := by
      by_contra some_
      have less := CLiteral.length_replaceTrigraphs_lt some_
      have le := length_sChars_le _ same
      omega
    rw [CLiteral.replaceTrigraphs_of_none none_] at same
    have plain := plain_of_sChars same
    exact ⟨plain.1, plain.2, none_⟩
  · rintro ⟨quotes, escapes, none_⟩
    rw [CLiteral.replaceTrigraphs_of_none none_]
    apply sChars_of_plain _ quotes escapes
    rw [List.length_append]
    omega

/-! ## The literal of Slim -/

/-- A tokenizer in front of a text. -/
def Tokenizer.before (pre text rest : List Char) (line lastLinePos : Nat) (current : Token) :
    Tokenizer :=
  ⟨pre ++ text ++ rest, pre.length, line, lastLinePos, current⟩

/-- The text is one token, and the node has the string. -/
def ReadsBack (text : List Char) (s : CStr) (t : Tokenizer) : Prop :=
  ∃ next, t.nextToken = some next ∧
    next.current = ⟨.stringLitTok, t.pos + 1, t.pos + (text.length - 1)⟩ ∧
    next.pos = t.pos + text.length ∧ unescapedString next = some s.chars

theorem readsBack_iff (p : Printer) (s : CStr) (pre rest : List Char) (line lastLinePos : Nat)
    (current : Token) (text : List Char) (printed : (printStringLit p s).output = p.output ++ text) :
    ReadsBack text s (Tokenizer.before pre text rest line lastLinePos current) ↔
      '"' ∉ s.chars ∧ escapeSeqs.Isolated s.chars := by
  have shape : text = '"' :: (escapeSeqs.encode s.chars ++ ['"']) := by
    rw [printStringLit_output] at printed
    exact (List.append_cancel_left printed).symm
  have slice : (Tokenizer.before pre text rest line lastLinePos current).slice =
      '"' :: (escapeSeqs.encode s.chars ++ '"' :: rest) := by
    rw [Tokenizer.slice, Tokenizer.before, List.append_assoc, List.drop_left, shape]
    simp
  have length : text.length = (escapeSeqs.encode s.chars).length + 2 := by
    rw [shape]
    simp
  by_cases quoted : '"' ∈ s.chars
  · -- the token ends with the first quote of the string
    refine iff_of_false ?_ (fun both => both.1 quoted)
    rintro ⟨next, read, -, pos, -⟩
    obtain ⟨u, v, split, unquoted⟩ :=
      List.eq_append_cons_of_mem ((quote_mem_encode s.chars).mpr quoted)
    rw [split, List.append_assoc, List.cons_append] at slice
    rw [nextToken_string slice unquoted] at read
    cases read
    rw [length, split, List.length_append, List.length_cons] at pos
    change _ + (u.length + 2) = _ at pos
    omega
  · have unquoted : '"' ∉ escapeSeqs.encode s.chars := fun member =>
      quoted ((quote_mem_encode s.chars).mp member)
    have read := nextToken_string slice unquoted
    have string : unescapedString
        ((Tokenizer.before pre text rest line lastLinePos current).accept .stringLitTok
          (pre.length + 1) (escapeSeqs.encode s.chars).length
          ((escapeSeqs.encode s.chars).length + 2)) = applyEscapeCodes (escapeSeqs.encode s.chars) := by
      rw [unescapedString]
      congr 1
      change ((pre ++ text ++ rest).drop (pre.length + 1)).take
        (pre.length + 1 + (escapeSeqs.encode s.chars).length - (pre.length + 1)) = _
      rw [Nat.add_sub_cancel_left, List.append_assoc, ← List.drop_drop, List.drop_left, shape,
        List.cons_append, List.drop_succ_cons, List.drop_zero, List.append_assoc, List.take_left]
    have back := applyEscapeCodes_unapply s.chars
    rw [unapplyEscapeCodes_eq] at back
    constructor
    · rintro ⟨next, found, -, -, same⟩
      rw [read] at found
      cases found
      exact ⟨quoted, back.mp (string.symm.trans same)⟩
    · rintro ⟨-, isolated⟩
      refine ⟨_, read, ?_, ?_, string.trans (back.mpr isolated)⟩
      · change Token.mk .stringLitTok (pre.length + 1)
          (pre.length + 1 + (escapeSeqs.encode s.chars).length) = _
        rw [length]
        simp only [Tokenizer.before, Token.mk.injEq, true_and]
        omega
      · rw [length]
        rfl

/-- A string comes back from its Slim literal, in any source, if and only if it has no quotes and its
backslashes are isolated; its literal of C stands for it if and only if it has no quotes, no
backslashes and no trigraphs. -/
theorem stringLiterals_exact (p : Printer) (s : CStr) (pre rest : List Char) (line lastLinePos : Nat)
    (current : Token) :
    (∃ text, (printStringLit p s).output = p.output ++ text ∧
      (ReadsBack text s (Tokenizer.before pre text rest line lastLinePos current) ↔
        '"' ∉ s.chars ∧ escapeSeqs.Isolated s.chars)) ∧
    (CLiteral.value (emitStringLiteral s) = some s.chars ↔
      '"' ∉ s.chars ∧ '\\' ∉ s.chars ∧ CLiteral.NoTrigraph s.chars) := by
  refine ⟨⟨_, printStringLit_output p s, ?_⟩, value_emitStringLiteral s⟩
  exact readsBack_iff p s pre rest line lastLinePos current _ (printStringLit_output p s)

/-- A single quote: the token is the backslash in front of it, and the literal of C ends at once. -/
theorem stringLiterals_quote :
    let s : CStr := ⟨['"'], by decide⟩
    (printStringLit ⟨[], 0⟩ s).output = ['"', '\\', '"', '"'] ∧
      ¬ ReadsBack ['"', '\\', '"', '"'] s
        (Tokenizer.before [] ['"', '\\', '"', '"'] [] 1 0 ⟨.eofTok, 0, 0⟩) ∧
      CLiteral.value (emitStringLiteral s) = none := by
  refine ⟨by decide, ?_, by decide⟩
  rintro ⟨next, read, token, -⟩
  have short : (Tokenizer.before [] ['"', '\\', '"', '"'] [] 1 0 ⟨.eofTok, 0, 0⟩).nextToken.map
      (fun next => next.current.end_) = some 2 := by
    decide +kernel
  rw [read, Option.map_some, token] at short
  exact absurd short (by decide)

end Shady.Slim
