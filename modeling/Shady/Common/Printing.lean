import Shady.Common.EscapeCodes
import Shady.Library.Buffer

/-!
# Printing into a buffer that grows

Model of `src/common/growy.c` and of `src/common/printer.c` on it. What `realloc` leaves in new bytes
is the parameter `fill`, and what `vsnprintf` makes of the arguments of `shd_print` is its text.
-/

set_option autoImplicit false

namespace Shady.Printing

structure Growy where
  buffer : List Char
  used : Nat
  size : Nat

/-- `init_size` -/
def initSize : Nat := 4096

def shdNewGrowy : Growy := ⟨List.replicate initSize '\x00', 0, initSize⟩

structure GrowyPrinter where
  growy : Growy
  indent : Int

section Operations
variable (fill : Nat → Char)

/-- `realloc` to a greater size. -/
def realloc (buffer : List Char) (size : Nat) : List Char :=
  buffer ++ (List.range' buffer.length (size - buffer.length)).map fill

/-- The loop of `shd_growy_append_bytes` -/
def growFor (used : Nat) : Nat → Growy → Growy
  | 0, g => g
  | turns + 1, g =>
      if g.size ≤ used then
        growFor used turns
          { g with size := g.size * 2, buffer := realloc fill g.buffer (g.size * 2) }
      else g

def shdGrowyAppendBytes (g : Growy) (bytes : List Char) : Option Growy := do
  let oldUsed := g.used
  let used := g.used + bytes.length
  let g := growFor fill used (used + 1) { g with used }
  let buffer ← Buffer.write g.buffer oldUsed bytes
  return { g with buffer }

/-- `shd_printer_print_raw`, of `len` characters of a string that `str` starts. -/
def shdPrinterPrintRaw (p : GrowyPrinter) (len : Nat) (str : List Char) : Option GrowyPrinter := do
  guard (len ≤ str.length)
  return { p with growy := ← shdGrowyAppendBytes fill p.growy (str.take len) }

/-- The loop of `shd_newline` -/
def printIndent : Nat → GrowyPrinter → Option GrowyPrinter
  | 0, p => return p
  | turns + 1, p => do printIndent turns (← shdPrinterPrintRaw fill p 4 (List.replicate 4 ' '))

def shdNewline (p : GrowyPrinter) : Option GrowyPrinter := do
  printIndent fill p.indent.toNat (← shdPrinterPrintRaw fill p 1 ['\n'])

/-- The loop of `shd_print` over the characters of `tmp` from `i` on. -/
def printFrom (tmp : List Char) : List Char → Nat → Nat → GrowyPrinter → Option GrowyPrinter
  | [], start, i, p =>
      if start < i then shdPrinterPrintRaw fill p (i - start) (tmp.drop start) else return p
  | c :: rest, start, i, p =>
      if c = '\n' then do
        let p ← shdPrinterPrintRaw fill p (i - start) (tmp.drop start)
        printFrom tmp rest (i + 1) (i + 1) (← shdNewline fill p)
      else printFrom tmp rest start (i + 1) p

def shdPrint (p : GrowyPrinter) (text : CStr) : Option GrowyPrinter :=
  printFrom fill text.chars text.chars 0 0 p

/-- `shd_printer_growy_unwrap` -/
def shdPrinterGrowyUnwrap (p : GrowyPrinter) : Option (List Char) :=
  (shdGrowyAppendBytes fill p.growy ['\x00']).map Growy.buffer

inductive Op
  | print (text : CStr)
  | newline
  | indent
  | deindent

def step (p : GrowyPrinter) : Op → Option GrowyPrinter
  | .print text => shdPrint fill p text
  | .newline => shdNewline fill p
  | .indent => some { p with indent := p.indent + 1 }
  | .deindent => some { p with indent := p.indent - 1 }

end Operations

/-- What the operation puts out, and the indentation behind it. -/
def Op.puts (p : Printer) : Op → Printer
  | .print text => p.print text.chars
  | .newline => p.print ['\n']
  | .indent => { p with indent := p.indent + 1 }
  | .deindent => { p with indent := p.indent - 1 }

/-! ## The buffer -/

/-- The buffer holds what was appended, and there is room behind it. -/
structure Holds (g : Growy) (output : List Char) : Prop where
  content : g.buffer.take g.used = output
  used : g.used = output.length
  room : g.used < g.size
  size : g.buffer.length = g.size

variable (fill : Nat → Char)

theorem growFor_spec (used : Nat) : ∀ turns (g : Growy), used < g.size + turns → 0 < g.size →
    g.buffer.length = g.size →
      ∃ more, (growFor fill used turns g).buffer = g.buffer ++ more ∧
        (growFor fill used turns g).used = g.used ∧ used < (growFor fill used turns g).size ∧
        (growFor fill used turns g).buffer.length = (growFor fill used turns g).size := by
  intro turns
  induction turns with
  | zero => exact fun g enough _ sized => ⟨[], (List.append_nil _).symm, rfl, enough, sized⟩
  | succ turns ih =>
      intro g enough positive sized
      rw [growFor]
      split
      · have longer : (realloc fill g.buffer (g.size * 2)).length = g.size * 2 := by
          simp [realloc, sized]
          omega
        obtain ⟨more, buffer, rest⟩ := ih { g with
          size := g.size * 2, buffer := realloc fill g.buffer (g.size * 2) }
          (by dsimp only; omega) (by dsimp only; omega) longer
        exact ⟨_, buffer.trans (List.append_assoc _ _ _), rest⟩
      · exact ⟨[], (List.append_nil _).symm, rfl, by omega, sized⟩

theorem append_holds {g : Growy} {output : List Char} (holds : Holds g output) (bytes : List Char) :
    ∃ g', shdGrowyAppendBytes fill g bytes = some g' ∧ Holds g' (output ++ bytes) := by
  have lengths := holds.used
  have room := holds.room
  have sized := holds.size
  obtain ⟨more, buffer, used, larger, whole⟩ := growFor_spec fill (g.used + bytes.length)
    (g.used + bytes.length + 1) { g with used := g.used + bytes.length } (by omega)
    (by dsimp only; omega) sized
  dsimp only at buffer used
  have front : (g.buffer ++ more).take g.used = output := by
    rw [List.take_append_of_le_length (by omega), holds.content]
  rw [buffer] at whole
  have inside : g.used + bytes.length ≤ (g.buffer ++ more).length := whole ▸ Nat.le_of_lt larger
  simp only [shdGrowyAppendBytes, buffer, Buffer.write, if_pos inside, front]
  refine ⟨_, rfl, ?_, ?_, ?_, ?_⟩
  · dsimp only
    rw [used]
    exact List.take_left' (by rw [List.length_append, lengths])
  · exact used.trans (by rw [List.length_append, lengths])
  · exact lt_of_eq_of_lt used larger
  · rw [← whole]
    simp only [List.length_append, List.length_drop] at inside ⊢
    omega

/-! ## Printing -/

/-- The printer has put out what the plain one has. -/
structure Prints (p : GrowyPrinter) (plain : Printer) : Prop where
  holds : Holds p.growy plain.output
  indent : p.indent = plain.indent

section Printing
variable {p : GrowyPrinter} {plain : Printer}

theorem raw_prints (prints : Prints p plain) (text rest : List Char) :
    ∃ p', shdPrinterPrintRaw fill p text.length (text ++ rest) = some p' ∧
      Prints p' { plain with output := plain.output ++ text } := by
  obtain ⟨g, appended, holds⟩ := append_holds fill prints.holds text
  refine ⟨⟨g, p.indent⟩, ?_, holds, prints.indent⟩
  simp [shdPrinterPrintRaw, appended]

theorem printIndent_prints (turns : Nat) : ∀ {p : GrowyPrinter} {plain : Printer}, Prints p plain →
    ∃ p', printIndent fill turns p = some p' ∧
      Prints p' { plain with output := plain.output ++ List.replicate (4 * turns) ' ' } := by
  induction turns with
  | zero => exact fun {p plain} prints => ⟨p, rfl, by simpa using prints⟩
  | succ turns ih =>
      intro p plain prints
      obtain ⟨p', printed, prints'⟩ := raw_prints fill prints (List.replicate 4 ' ') []
      obtain ⟨p'', indented, prints''⟩ := ih prints'
      refine ⟨p'', ?_, ?_⟩
      · rw [printIndent]
        exact (congrArg (· >>= printIndent fill turns) printed).trans indented
      · rw [List.append_assoc, ← List.replicate_add] at prints''
        rw [Nat.mul_succ, Nat.add_comm]
        exact prints''

theorem newline_prints (prints : Prints p plain) :
    ∃ p', shdNewline fill p = some p' ∧ Prints p' (plain.print ['\n']) := by
  obtain ⟨p', printed, prints'⟩ := raw_prints fill prints ['\n'] []
  obtain ⟨p'', indented, prints''⟩ := printIndent_prints fill p.indent.toNat prints'
  refine ⟨p'', (congrArg (· >>= printIndent fill p.indent.toNat) printed).trans indented, ?_⟩
  rw [prints.indent, List.append_assoc] at prints''
  simpa [Printer.print] using prints''

/-- `pending` was passed and is still to be printed. -/
theorem printFrom_prints (tmp rest : List Char) : ∀ (start i : Nat) (pending : List Char)
    {p : GrowyPrinter} {plain : Printer}, tmp.drop start = pending ++ rest →
    i = start + pending.length → Prints p plain →
    ∃ p', printFrom fill tmp rest start i p = some p' ∧
      Prints p' (Printer.print { plain with output := plain.output ++ pending } rest) := by
  induction rest with
  | nil =>
      intro start i pending p plain ahead here prints
      have passed : i - start = pending.length := by omega
      have printed := raw_prints fill prints pending []
      rw [printFrom, ahead, passed]
      split
      · simpa [Printer.print] using printed
      · have nothing : pending = [] := List.eq_nil_of_length_eq_zero (by omega)
        exact ⟨p, rfl, by simpa [Printer.print, nothing] using prints⟩
  | cons c rest ih =>
      intro start i pending p plain ahead here prints
      have passed : i - start = pending.length := by omega
      rw [printFrom]
      by_cases line : c = '\n'
      · obtain ⟨p₁, printed, prints₁⟩ := raw_prints fill prints pending (c :: rest)
        obtain ⟨p₂, broken, prints₂⟩ := newline_prints fill prints₁
        have behind : tmp.drop (i + 1) = [] ++ rest := by
          rw [here, Nat.add_assoc, ← List.drop_drop, ahead, ← List.drop_drop, List.drop_left]
          rfl
        obtain ⟨p₃, others, prints₃⟩ := ih (i + 1) (i + 1) [] behind rfl prints₂
        refine ⟨p₃, ?_, ?_⟩
        · simp only [if_pos line, ahead, passed, printed, broken, Option.bind_eq_bind, Option.bind_some]
          exact others
        · simpa [Printer.print, line] using prints₃
      · have ahead' : tmp.drop start = (pending ++ [c]) ++ rest := by rw [ahead]; simp
        obtain ⟨p', printed, prints'⟩ := ih start (i + 1) (pending ++ [c]) ahead'
          (by rw [List.length_append, here]; rfl) prints
        refine ⟨p', (if_neg line).trans printed, ?_⟩
        simpa [Printer.print, line] using prints'

theorem step_prints (prints : Prints p plain) (op : Op) :
    ∃ p', step fill p op = some p' ∧ Prints p' (op.puts plain) := by
  cases op with
  | print text =>
      have printed := printFrom_prints fill text.chars text.chars 0 0 [] rfl rfl prints
      rw [List.append_nil] at printed
      exact printed
  | newline => exact newline_prints fill prints
  | indent => exact ⟨_, rfl, prints.holds, congrArg (· + 1) prints.indent⟩
  | deindent => exact ⟨_, rfl, prints.holds, congrArg (· - 1) prints.indent⟩

theorem run_prints (ops : List Op) : ∀ {p : GrowyPrinter} {plain : Printer}, Prints p plain →
    ∃ p', ops.foldlM (step fill) p = some p' ∧ Prints p' (ops.foldl Op.puts plain) := by
  induction ops with
  | nil => exact fun {p _} prints => ⟨p, rfl, prints⟩
  | cons op ops ih =>
      intro p plain prints
      obtain ⟨next, stepped, prints'⟩ := step_prints fill prints op
      obtain ⟨p', ran, prints''⟩ := ih prints'
      refine ⟨p', ?_, prints''⟩
      rw [List.foldlM_cons, stepped]
      exact ran

end Printing

/-- Whatever is printed, nothing is written outside of the buffer, and the string unwrapped in the end
is the text with each newline followed by the indentation. -/
theorem unwrap_prints (fill : Nat → Char) (ops : List Op) : ∃ p buffer,
    ops.foldlM (step fill) ⟨shdNewGrowy, 0⟩ = some p ∧ p.growy.used < p.growy.size ∧
      p.growy.buffer.length = p.growy.size ∧ shdPrinterGrowyUnwrap fill p = some buffer ∧
        (ops.foldl Op.puts ⟨[], 0⟩).output ++ ['\x00'] <+: buffer := by
  have start : Prints ⟨shdNewGrowy, 0⟩ ⟨[], 0⟩ :=
    ⟨⟨rfl, rfl, by decide, List.length_replicate⟩, rfl⟩
  obtain ⟨p, ran, prints⟩ := run_prints fill ops start
  obtain ⟨g, appended, holds⟩ := append_holds fill prints.holds ['\x00']
  refine ⟨p, g.buffer, ran, prints.holds.room, prints.holds.size, ?_, ?_⟩
  · rw [shdPrinterGrowyUnwrap, appended]
    rfl
  · rw [← holds.content]
    exact List.take_prefix _ _

end Shady.Printing
