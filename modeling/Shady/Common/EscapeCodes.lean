import Shady.Library.Escapes

/-!
# Escape codes

The two pairs of functions of `src/common/util.c` that replace escape codes by the characters
they stand for, and the other way around: in a buffer, and while printing.
-/

set_option autoImplicit false

namespace Shady

/-- `ESCAPE_SEQS` -/
def escapeSeqs : Escapes.Table Char where
  escape := '\\'
  codes := [('\\', '\\'), ('\'', '\''), ('"', '"'), ('n', '\n'), ('t', '\t'), ('b', '\x08'),
    ('r', '\r'), ('f', '\x0c'), ('a', '\x07'), ('v', '\x0b')]
  escapes := by decide
  codesDistinct := by decide
  meaningsDistinct := by decide

/-- The bytes of a string that ends with the first zero, each as the character with its code. -/
structure CStr where
  chars : List Char
  noNul : '\x00' ∉ chars

/-! ## Buffers -/

/-- A turn of the loop of `shd_apply_escape_codes`, with the character read last and what is
written so far; `none` where `dst[j - 1]` would be before the start. -/
def applyEscapeCodesStep (state : Char × List Char) (c : Char) : Option (Char × List Char) :=
  let (prev, dst) := state
  match if prev = '\\' then escapeSeqs.meaning c else none with
  | some s => if dst = [] then none else some (c, dst.dropLast ++ [s])
  | none => some (c, dst ++ [c])

/-- `shd_apply_escape_codes` -/
def applyEscapeCodes (src : List Char) : Option (List Char) :=
  (src.foldlM applyEscapeCodesStep ('\x00', [])).map Prod.snd

/-- `shd_unapply_escape_codes` -/
def unapplyEscapeCodes (src : List Char) : List Char :=
  src.foldl
    (fun dst c =>
      match escapeSeqs.codeOf c with
      | some m => dst ++ ['\\', m]
      | none => dst ++ [c])
    []

/-! ## Printers -/

/-- What a printer has put out, and its indentation. -/
structure Printer where
  output : List Char
  indent : Int

/-- `shd_print` of a text; each newline is followed by the indentation. -/
def Printer.print (p : Printer) (text : List Char) : Printer :=
  { p with
    output := p.output ++ text.flatMap fun c =>
      if c = '\n' then '\n' :: List.replicate (4 * p.indent.toNat) ' ' else [c] }

/-- The loop of `shd_printer_escape` -/
def printerEscapeFrom (p : Printer) : List Char → Printer
  | [] => p
  | [c] => p.print [c]
  | c :: next :: rest =>
      match if c = '\\' then escapeSeqs.meaning next else none with
      | some code => printerEscapeFrom (p.print [code]) rest
      | none => printerEscapeFrom (p.print [c]) (next :: rest)

/-- `shd_printer_escape` -/
def printerEscape (p : Printer) (src : CStr) : Printer := printerEscapeFrom p src.chars

/-- `shd_printer_unescape` -/
def printerUnescape (p : Printer) (src : CStr) : Printer :=
  src.chars.foldl
    (fun p c =>
      match escapeSeqs.codeOf c with
      | some m => p.print ['\\', m]
      | none => p.print [c])
    p

/-! ## Encoding -/

theorem unapplyEscapeCodes_eq (src : List Char) : unapplyEscapeCodes src = escapeSeqs.encode src := by
  have step : ∀ dst : List Char, src.foldl
      (fun dst c =>
        match escapeSeqs.codeOf c with
        | some m => dst ++ ['\\', m]
        | none => dst ++ [c]) dst = dst ++ escapeSeqs.encode src := by
    induction src with
    | nil => intro dst; exact (List.append_nil dst).symm
    | cons c src ih =>
        intro dst
        rw [List.foldl_cons, ih, Escapes.Table.encode_cons, Escapes.Table.encodeChar]
        cases escapeSeqs.codeOf c with
        | some m => exact List.append_assoc _ _ _
        | none => exact List.append_assoc _ _ _
  exact step []

/-! ## What the loop over a buffer writes -/

/-- How many characters the loop appends; a code behind an escape character replaces one. -/
def written (prev : Char) : List Char → Nat
  | [] => 0
  | c :: s => (if prev = '\\' ∧ escapeSeqs.meaning c ≠ none then 0 else 1) + written c s

theorem written_cons_le (prev c : Char) (s : List Char) : written prev (c :: s) ≤ 1 + written c s := by
  rw [written]
  split <;> omega

theorem written_cons_code {c : Char} (code : escapeSeqs.meaning c ≠ none) (s : List Char) :
    written '\\' (c :: s) = written c s := by
  rw [written, if_pos ⟨rfl, code⟩, Nat.zero_add]

theorem applyEscapeCodesStep_merge {c s : Char} {dst : List Char} (nonempty : dst ≠ [])
    (means : escapeSeqs.meaning c = some s) :
    applyEscapeCodesStep ('\\', dst) c = some (c, dst.dropLast ++ [s]) := by
  simp [applyEscapeCodesStep, means, nonempty]

theorem applyEscapeCodesStep_append {prev c : Char} {dst : List Char}
    (apart : prev = '\\' → escapeSeqs.meaning c = none) :
    applyEscapeCodesStep (prev, dst) c = some (c, dst ++ [c]) := by
  have unmerged : (if prev = '\\' then escapeSeqs.meaning c else none) = none := by
    split
    · exact apart ‹_›
    · rfl
  simp only [applyEscapeCodesStep, unmerged]

/-- The loop never writes before the start of the buffer. -/
theorem applyEscapeCodes_runs (src : List Char) : ∀ (prev : Char) (dst : List Char),
    (prev = '\\' → dst ≠ []) → ∃ last out,
      src.foldlM applyEscapeCodesStep (prev, dst) = some (last, out) ∧
        out.length = dst.length + written prev src := by
  induction src with
  | nil =>
      intro prev dst _
      exact ⟨prev, dst, rfl, rfl⟩
  | cons c src ih =>
      intro prev dst nonempty
      by_cases merged : prev = '\\' ∧ escapeSeqs.meaning c ≠ none
      · obtain ⟨s, means⟩ := Option.ne_none_iff_exists'.mp merged.2
        have some_ := nonempty merged.1
        obtain ⟨last, out, ran, length⟩ := ih c (dst.dropLast ++ [s]) (fun _ => by simp)
        refine ⟨last, out, ?_, ?_⟩
        · rw [List.foldlM_cons, merged.1, applyEscapeCodesStep_merge some_ means]
          exact ran
        · have positive := List.length_pos_of_ne_nil some_
          rw [length, written, if_pos merged, List.length_append, List.length_dropLast,
            List.length_singleton]
          omega
      · have apart : prev = '\\' → escapeSeqs.meaning c = none := by
          intro same
          by_contra code
          exact merged ⟨same, code⟩
        obtain ⟨last, out, ran, length⟩ := ih c (dst ++ [c]) (fun _ => by simp)
        refine ⟨last, out, ?_, ?_⟩
        · rw [List.foldlM_cons, applyEscapeCodesStep_append apart]
          exact ran
        · rw [length, written, if_neg merged, List.length_append, List.length_singleton]
          omega

theorem applyEscapeCodes_returns (src : List Char) :
    ∃ out, applyEscapeCodes src = some out ∧ out.length = written '\x00' src := by
  obtain ⟨last, out, ran, length⟩ := applyEscapeCodes_runs src '\x00' [] (by decide)
  refine ⟨out, ?_, ?_⟩
  · rw [applyEscapeCodes, ran, Option.map_some]
  · rw [length, List.length_nil, Nat.zero_add]

theorem written_le (src : List Char) : ∀ prev, written prev src ≤ (escapeSeqs.decode src).length := by
  induction src using escapeSeqs.pairsInduction with
  | empty =>
      intro prev
      exact Nat.zero_le _
  | last =>
      intro prev
      exact written_cons_le prev _ []
  | ordinary c s other ih =>
      intro prev
      have first := written_cons_le prev c s
      have rest := ih c
      rw [escapeSeqs.decode_cons_of_ne other, List.length_cons]
      omega
  | pair d meant rest means ih =>
      intro prev
      have first := written_cons_le prev escapeSeqs.escape (d :: rest)
      have second : written escapeSeqs.escape (d :: rest) = written d rest :=
        written_cons_code (by simp [means]) rest
      have later := ih d
      rw [escapeSeqs.decode_pair means, List.length_cons]
      omega
  | lone d rest unknown ih =>
      intro prev
      have first := written_cons_le prev escapeSeqs.escape (d :: rest)
      have later := ih escapeSeqs.escape
      rw [escapeSeqs.decode_lone unknown, List.length_cons]
      omega

/-- A code behind an escape character that is escaped itself is lost. -/
theorem written_lt_of_code {c : Char} (code : escapeSeqs.meaning c ≠ none) (s : List Char) :
    written '\\' (c :: s) < (escapeSeqs.decode (c :: s)).length := by
  rw [written_cons_code code]
  by_cases escaping : c = escapeSeqs.escape
  · rw [escaping]
    cases s with
    | nil => exact Nat.one_pos
    | cons d rest =>
        cases means : escapeSeqs.meaning d with
        | some meant =>
            have second : written escapeSeqs.escape (d :: rest) = written d rest :=
              written_cons_code (by simp [means]) rest
            have later := written_le rest d
            rw [escapeSeqs.decode_pair means, List.length_cons, second]
            omega
        | none =>
            have later := written_le (d :: rest) escapeSeqs.escape
            rw [escapeSeqs.decode_lone means, List.length_cons]
            omega
  · have later := written_le s c
    rw [escapeSeqs.decode_cons_of_ne escaping, List.length_cons]
    omega

theorem written_lt (src : List Char) (collides : ¬ escapeSeqs.Apart src) :
    ∀ prev, written prev src < (escapeSeqs.decode src).length := by
  induction src using escapeSeqs.pairsInduction with
  | empty => exact absurd trivial collides
  | last => exact absurd trivial collides
  | ordinary c s other ih =>
      intro prev
      rw [escapeSeqs.apart_cons_of_ne other] at collides
      have first := written_cons_le prev c s
      have rest := ih collides c
      rw [escapeSeqs.decode_cons_of_ne other, List.length_cons]
      omega
  | pair d meant rest means ih =>
      intro prev
      rw [escapeSeqs.apart_pair means] at collides
      have first := written_cons_le prev escapeSeqs.escape (d :: rest)
      have second : written escapeSeqs.escape (d :: rest) = written d rest :=
        written_cons_code (by simp [means]) rest
      rw [escapeSeqs.decode_pair means, List.length_cons]
      by_cases apart : escapeSeqs.Apart rest
      · have pair : d = escapeSeqs.escape ∧ ¬ escapeSeqs.NoCodeFirst rest := by
          by_contra all
          apply collides
          refine ⟨fun same => ?_, apart⟩
          by_contra codeFirst
          exact all ⟨same, codeFirst⟩
        cases rest with
        | nil => exact absurd (fun c head => nomatch head) pair.2
        | cons c rest =>
            have code : escapeSeqs.meaning c ≠ none := by
              intro unknown
              apply pair.2
              intro first head
              cases head
              exact unknown
            have later := written_lt_of_code code rest
            have escape : d = '\\' := pair.1
            rw [escape] at first second ⊢
            have whole : written prev (escapeSeqs.escape :: '\\' :: c :: rest) ≤
                1 + written '\\' (c :: rest) := second ▸ first
            omega
      · have later := ih apart d
        omega
  | lone d rest unknown ih =>
      intro prev
      rw [escapeSeqs.apart_lone unknown] at collides
      have first := written_cons_le prev escapeSeqs.escape (d :: rest)
      have later := ih collides escapeSeqs.escape
      rw [escapeSeqs.decode_lone unknown, List.length_cons]
      omega

/-- Where no escaped escape character comes before a code, the loop decodes. -/
theorem applyEscapeCodes_apart (src : List Char) (apart : escapeSeqs.Apart src) :
    ∀ (prev : Char) (dst : List Char), (prev = '\\' → escapeSeqs.NoCodeFirst src) →
      ∃ last, src.foldlM applyEscapeCodesStep (prev, dst) =
        some (last, dst ++ escapeSeqs.decode src) := by
  induction src using escapeSeqs.pairsInduction with
  | empty =>
      intro prev dst _
      exact ⟨prev, by rw [show escapeSeqs.decode [] = [] from rfl, List.append_nil]; rfl⟩
  | last =>
      intro prev dst first
      have unmerged := fun same => first same escapeSeqs.escape rfl
      exact ⟨escapeSeqs.escape, by
        rw [List.foldlM_cons, applyEscapeCodesStep_append unmerged]
        rfl⟩
  | ordinary c s other ih =>
      intro prev dst first
      rw [escapeSeqs.apart_cons_of_ne other] at apart
      have unmerged := fun same => first same c rfl
      obtain ⟨last, ran⟩ := ih apart c (dst ++ [c]) (fun same => absurd same other)
      refine ⟨last, ?_⟩
      rw [List.foldlM_cons, applyEscapeCodesStep_append unmerged, escapeSeqs.decode_cons_of_ne other,
        List.append_cons dst c (escapeSeqs.decode s)]
      exact ran
  | pair d meant rest means ih =>
      intro prev dst first
      rw [escapeSeqs.apart_pair means] at apart
      have unmerged := fun same => first same escapeSeqs.escape rfl
      obtain ⟨last, ran⟩ := ih apart.2 d (dst ++ [meant]) apart.1
      refine ⟨last, ?_⟩
      have merge : applyEscapeCodesStep (escapeSeqs.escape, dst ++ [escapeSeqs.escape]) d =
          some (d, dst ++ [meant]) := by
        have step := applyEscapeCodesStep_merge (List.append_ne_nil_of_right_ne_nil dst
          (List.cons_ne_nil escapeSeqs.escape [])) means
        rw [List.dropLast_concat] at step
        exact step
      rw [List.foldlM_cons, applyEscapeCodesStep_append unmerged, escapeSeqs.decode_pair means,
        List.append_cons dst meant]
      change (d :: rest).foldlM applyEscapeCodesStep (escapeSeqs.escape, dst ++ [escapeSeqs.escape]) = _
      rw [List.foldlM_cons, merge]
      exact ran
  | lone d rest unknown ih =>
      intro prev dst first
      rw [escapeSeqs.apart_lone unknown] at apart
      have unmerged := fun same => first same escapeSeqs.escape rfl
      obtain ⟨last, ran⟩ := ih apart escapeSeqs.escape (dst ++ [escapeSeqs.escape]) (by
        intro _ c head
        cases head
        exact unknown)
      refine ⟨last, ?_⟩
      rw [List.foldlM_cons, applyEscapeCodesStep_append unmerged, escapeSeqs.decode_lone unknown,
        List.append_cons dst _ (escapeSeqs.decode _)]
      exact ran

/-- The loop reads disjoint pairs if and only if no escaped backslash comes before a code. -/
theorem applyEscapeCodes_eq_decode (src : List Char) :
    applyEscapeCodes src = some (escapeSeqs.decode src) ↔ escapeSeqs.Apart src := by
  constructor
  · intro same
    by_contra collides
    obtain ⟨out, ran, length⟩ := applyEscapeCodes_returns src
    have fewer := written_lt src collides '\x00'
    rw [same] at ran
    cases ran
    omega
  · intro apart
    have start : '\x00' = '\\' → escapeSeqs.NoCodeFirst src := fun same => absurd same (by decide)
    obtain ⟨last, ran⟩ := applyEscapeCodes_apart src apart '\x00' [] start
    rw [applyEscapeCodes, ran, Option.map_some, List.nil_append]

theorem applyEscapeCodes_unapply (src : List Char) :
    applyEscapeCodes (unapplyEscapeCodes src) = some src ↔ escapeSeqs.Isolated src := by
  have decoded := applyEscapeCodes_eq_decode (escapeSeqs.encode src)
  rw [escapeSeqs.decode_encode, escapeSeqs.apart_encode] at decoded
  rw [unapplyEscapeCodes_eq]
  exact decoded

/-! ## What the printers put out -/

namespace Printer
variable (p : Printer)

theorem print_append (a b : List Char) : (p.print a).print b = p.print (a ++ b) := by
  simp only [print, List.flatMap_append, List.append_assoc]

theorem print_nil : p.print [] = p := by
  simp only [print, List.flatMap_nil, List.append_nil]

theorem print_plain {text : List Char} (plain : p.indent ≤ 0 ∨ '\n' ∉ text) :
    (p.print text).output = p.output ++ text := by
  have same : (text.flatMap fun c =>
      if c = '\n' then '\n' :: List.replicate (4 * p.indent.toNat) ' ' else [c]) =
        text.flatMap fun c => [c] := by
    apply List.flatMap_congr
    intro c member
    split
    · cases plain with
      | inl flat =>
          rw [Int.toNat_of_nonpos flat]
          exact congrArg (· :: []) (‹c = '\n'›).symm
      | inr absent => exact absurd (‹c = '\n'› ▸ member) absent
    · rfl
  rw [print, same, List.flatMap_singleton']

theorem length_print_le (text : List Char) :
    p.output.length + text.length ≤ (p.print text).output.length := by
  induction text generalizing p with
  | nil => rw [print_nil]; exact le_rfl
  | cons c text ih =>
      have rest := ih (p.print [c])
      rw [print_append] at rest
      have first : p.output.length + 1 ≤ (p.print [c]).output.length := by
        simp only [print, List.flatMap_cons, List.flatMap_nil, List.append_nil, List.length_append]
        split <;> simp
      rw [List.length_cons]
      exact le_trans (by omega) rest

/-- A newline of an indented printer takes more than one character. -/
theorem length_print_lt {text : List Char} (indented : 0 < p.indent) (newline : '\n' ∈ text) :
    p.output.length + text.length < (p.print text).output.length := by
  obtain ⟨before, after, shape⟩ := List.append_of_mem newline
  have first := p.length_print_le before
  have last := ((p.print before).print ['\n']).length_print_le after
  have middle : (p.print before).output.length + 1 <
      ((p.print before).print ['\n']).output.length := by
    have positive : 0 < p.indent.toNat := Int.pos_iff_toNat_pos.mp indented
    simp [print]
    omega
  rw [print_append, print_append] at last
  rw [print_append] at middle
  rw [shape, List.append_cons, List.length_append, List.length_append, List.length_singleton]
  omega

/-- Printing adds the text itself if and only if no newline is indented. -/
theorem print_exact (text : List Char) :
    (p.print text).output = p.output ++ text ↔ p.indent ≤ 0 ∨ '\n' ∉ text := by
  constructor
  · intro same
    by_contra indented
    push Not at indented
    have longer := p.length_print_lt indented.1 indented.2
    rw [same, List.length_append] at longer
    omega
  · exact p.print_plain

end Printer

theorem printerEscapeFrom_eq (src : List Char) :
    ∀ p : Printer, printerEscapeFrom p src = p.print (escapeSeqs.decode src) := by
  induction src using escapeSeqs.pairsInduction with
  | empty =>
      intro p
      exact p.print_nil.symm
  | last =>
      intro p
      rfl
  | ordinary c s other ih =>
      intro p
      have single : escapeSeqs.decode (c :: s) = [c] ++ escapeSeqs.decode s :=
        escapeSeqs.decode_cons_of_ne other s
      rw [single, ← p.print_append, ← ih]
      cases s with
      | nil => rfl
      | cons next rest =>
          have plain : (if c = '\\' then escapeSeqs.meaning next else none) = none := if_neg other
          rw [printerEscapeFrom, plain]
  | pair d meant rest means ih =>
      intro p
      have first : escapeSeqs.decode (escapeSeqs.escape :: d :: rest) =
          [meant] ++ escapeSeqs.decode rest := escapeSeqs.decode_pair means rest
      have code : (if escapeSeqs.escape = '\\' then escapeSeqs.meaning d else none) = some meant :=
        (if_pos rfl).trans means
      rw [first, ← p.print_append, ← ih, printerEscapeFrom, code]
  | lone d rest unknown ih =>
      intro p
      have first : escapeSeqs.decode (escapeSeqs.escape :: d :: rest) =
          [escapeSeqs.escape] ++ escapeSeqs.decode (d :: rest) := escapeSeqs.decode_lone unknown rest
      have code : (if escapeSeqs.escape = '\\' then escapeSeqs.meaning d else none) = none :=
        (if_pos rfl).trans unknown
      rw [first, ← p.print_append, ← ih, printerEscapeFrom, code]

theorem newline_not_mem_encode (src : List Char) : '\n' ∉ escapeSeqs.encode src := by
  intro member
  obtain ⟨c, -, inside⟩ := List.mem_flatMap.mp member
  cases coded : escapeSeqs.codeOf c with
  | some code =>
      have listed := escapeSeqs.codeOf_eq_some.mp coded
      rw [Escapes.Table.encodeChar, coded] at inside
      have newline : '\n' = code := by
        simpa [escapeSeqs] using inside
      rw [← newline] at listed
      exact absurd listed (by
        intro member
        simp [escapeSeqs] at member)
  | none =>
      rw [Escapes.Table.encodeChar, coded] at inside
      rw [← List.mem_singleton.mp inside] at coded
      exact absurd coded (by decide)

theorem printerUnescape_eq (p : Printer) (src : CStr) :
    printerUnescape p src = p.print (unapplyEscapeCodes src.chars) := by
  have step : ∀ (src : List Char) (p : Printer), src.foldl
      (fun p c =>
        match escapeSeqs.codeOf c with
        | some m => p.print ['\\', m]
        | none => p.print [c]) p = p.print (escapeSeqs.encode src) := by
    intro src
    induction src with
    | nil => intro p; exact p.print_nil.symm
    | cons c src ih =>
        intro p
        rw [List.foldl_cons, ih, Escapes.Table.encode_cons, Escapes.Table.encodeChar]
        cases escapeSeqs.codeOf c with
        | some m => exact p.print_append _ _
        | none => exact p.print_append _ _
  rw [unapplyEscapeCodes_eq]
  exact step src.chars p

/-- No loop writes before the start of its buffer, and printing encodes as the buffer's loop does.
The buffer's loops are inverse exactly where backslashes are isolated; it decodes disjoint pairs
exactly where no escaped backslash comes before a code; and it gives what the printer puts out
exactly where the printer does not indent a newline either. -/
theorem escapeCodes_exact (p : Printer) (s : CStr) :
    (∃ out, applyEscapeCodes s.chars = some out) ∧
    (printerUnescape p s).output = p.output ++ unapplyEscapeCodes s.chars ∧
    (applyEscapeCodes (unapplyEscapeCodes s.chars) = some s.chars ↔
      escapeSeqs.Isolated s.chars) ∧
    (applyEscapeCodes s.chars = some (escapeSeqs.decode s.chars) ↔ escapeSeqs.Apart s.chars) ∧
    ((applyEscapeCodes s.chars).map (p.output ++ ·) = some (printerEscape p s).output ↔
      escapeSeqs.Apart s.chars ∧ (p.indent ≤ 0 ∨ '\n' ∉ escapeSeqs.decode s.chars)) := by
  obtain ⟨out, ran, length⟩ := applyEscapeCodes_returns s.chars
  have flat : '\n' ∉ unapplyEscapeCodes s.chars := by
    rw [unapplyEscapeCodes_eq]
    exact newline_not_mem_encode s.chars
  refine ⟨⟨out, ran⟩, ?_, applyEscapeCodes_unapply s.chars, applyEscapeCodes_eq_decode s.chars, ?_⟩
  · rw [printerUnescape_eq, p.print_plain (Or.inr flat)]
  · rw [printerEscape, printerEscapeFrom_eq]
    constructor
    · intro same
      have apart : escapeSeqs.Apart s.chars := by
        by_contra collides
        have fewer := written_lt s.chars collides '\x00'
        have longer := p.length_print_le (escapeSeqs.decode s.chars)
        rw [ran, Option.map_some, Option.some.injEq] at same
        rw [← same, List.length_append] at longer
        omega
      refine ⟨apart, ?_⟩
      rw [(applyEscapeCodes_eq_decode s.chars).mpr apart, Option.map_some, Option.some.injEq] at same
      exact (p.print_exact _).mp same.symm
    · rintro ⟨apart, plain⟩
      rw [(applyEscapeCodes_eq_decode s.chars).mpr apart, Option.map_some, p.print_plain plain]

/-- A backslash before a letter does not come back. -/
theorem escapeCodes_merge :
    applyEscapeCodes (unapplyEscapeCodes ['\\', 'n']) = some ['\n'] ∧
      applyEscapeCodes (unapplyEscapeCodes ['\\', 'n']) ≠ some ['\\', 'n'] ∧
      applyEscapeCodes ['\\', '\\', 'n'] ≠ some (escapeSeqs.decode ['\\', '\\', 'n']) := by
  decide

end Shady
