import Mathlib.Data.Option.Basic
import Mathlib.Data.List.Basic

/-!
# A small imperative language

Statements over numbered variables and a memory: declarations, assignments, effects,
branches, one form of loop, and the three ways to leave a block early. A block forgets
the variables it declared. What an operation computes and what an effect does is given
by a machine; a run records the effects it performed and the marks it passed, which
are no statements of the language but places of the text.
-/

set_option autoImplicit false

namespace Imperative

structure Machine (Op Kind Word Mem : Type) where
  literal : Nat → Word
  operate : Op → List Word → Word
  truthy : Word → Bool
  fetch : Mem → Word → Word
  perform : Kind → List Word → Mem → Mem × Word

inductive Event (Kind Label Word : Type)
  | performed (kind : Kind) (operands : List Word)
  | marked (label : Label) (words : List Word)
  deriving DecidableEq

structure World (Kind Label Word Mem : Type) where
  mem : Mem
  trace : List (Event Kind Label Word)
  deriving DecidableEq

section Worlds
variable {Op Kind Label Word Mem : Type}

def World.record (world : World Kind Label Word Mem) (event : Event Kind Label Word) :
    World Kind Label Word Mem :=
  { world with trace := world.trace ++ [event] }

def World.perform (m : Machine Op Kind Word Mem) (kind : Kind) (operands : List Word)
    (world : World Kind Label Word Mem) : World Kind Label Word Mem × Word :=
  let after := m.perform kind operands world.mem
  (World.record { world with mem := after.1 } (.performed kind operands), after.2)

end Worlds

/-! ## Loops with a bound on their turns -/

/-- Turns of a loop until one ends it, `none` when the bound is too low or a turn fails. -/
def loopWhile {σ ρ : Type} (turn : σ → Option (σ ⊕ ρ)) : Nat → σ → Option ρ
  | 0, _ => none
  | bound + 1, s =>
      match turn s with
      | none => none
      | some (.inl next) => loopWhile turn bound next
      | some (.inr result) => some result

/-- Two loops run in step when a turn of the one is answered by a turn of the other. -/
theorem loopWhile_simulates {σ ρ τ υ : Type} {turn : σ → Option (σ ⊕ ρ)}
    {turn' : τ → Option (τ ⊕ υ)} (R : σ → τ → Prop) (S : ρ → υ → Prop)
    (continues : ∀ s t, R s t → ∀ s', turn s = some (.inl s') → ∃ t', turn' t = some (.inl t') ∧ R s' t')
    (ends : ∀ s t, R s t → ∀ r, turn s = some (.inr r) → ∃ u, turn' t = some (.inr u) ∧ S r u)
    {bound : Nat} {s : σ} {t : τ} {r : ρ} (related : R s t)
    (ran : loopWhile turn bound s = some r) : ∃ u, loopWhile turn' bound t = some u ∧ S r u := by
  induction bound generalizing s t with
  | zero => simp [loopWhile] at ran
  | succ bound ih =>
      rw [loopWhile] at ran
      cases first : turn s with
      | none => simp [first] at ran
      | some result =>
          rw [first] at ran
          cases result with
          | inl next =>
              obtain ⟨next', followed, kept⟩ := continues s t related next first
              rw [loopWhile, followed]
              exact ih kept ran
          | inr result =>
              cases Option.some.inj ran
              obtain ⟨result', followed, kept⟩ := ends s t related r first
              refine ⟨result', ?_, kept⟩
              rw [loopWhile, followed]

/-- What every turn keeps, and every last turn turns into `Q`. -/
theorem loopWhile_invariant {σ ρ : Type} {turn : σ → Option (σ ⊕ ρ)} (P : σ → Prop) (Q : ρ → Prop)
    (keeps : ∀ s, P s → ∀ s', turn s = some (.inl s') → P s')
    (ends : ∀ s, P s → ∀ r, turn s = some (.inr r) → Q r)
    {bound : Nat} {s : σ} {r : ρ} (start : P s) (ran : loopWhile turn bound s = some r) : Q r := by
  induction bound generalizing s with
  | zero => simp [loopWhile] at ran
  | succ bound ih =>
      rw [loopWhile] at ran
      cases first : turn s with
      | none => simp [first] at ran
      | some result =>
          rw [first] at ran
          cases result with
          | inl next => exact ih (keeps s start next first) ran
          | inr result =>
              cases Option.some.inj ran
              exact ends s start r first

/-! ## Expressions -/

mutual
inductive Expr (Op : Type)
  | var (x : Nat)
  | literal (n : Nat)
  | deref (address : Expr Op)
  | apply (op : Op) (operands : Exprs Op)
inductive Exprs (Op : Type)
  | nil
  | cons (head : Expr Op) (tail : Exprs Op)
end

/-- The variables that are declared, and the words of those that have one. -/
abbrev Vars (Word : Type) : Type := Nat → Option (Option Word)

section Evaluation
variable {Op Kind Word Mem : Type}

mutual
def Expr.eval (m : Machine Op Kind Word Mem) (vars : Vars Word) (mem : Mem) :
    Expr Op → Option Word
  | .var x => (vars x).join
  | .literal n => some (m.literal n)
  | .deref address => (address.eval m vars mem).map (m.fetch mem)
  | .apply op operands => (operands.eval m vars mem).map (m.operate op)
def Exprs.eval (m : Machine Op Kind Word Mem) (vars : Vars Word) (mem : Mem) :
    Exprs Op → Option (List Word)
  | .nil => some []
  | .cons head tail =>
      (head.eval m vars mem).bind fun word => (tail.eval m vars mem).map (word :: ·)
end

inductive Cond (Op : Type)
  | truth (e : Expr Op)
  | equal (a b : Expr Op)

def Cond.eval [DecidableEq Word] (m : Machine Op Kind Word Mem) (vars : Vars Word) (mem : Mem) :
    Cond Op → Option Bool
  | .truth e => (e.eval m vars mem).map m.truthy
  | .equal a b => (a.eval m vars mem).bind fun x => (b.eval m vars mem).map fun y => decide (x = y)

end Evaluation

/-! ## Statements -/

inductive Stmt (Op Kind Label : Type)
  | skip
  | seq (first second : Stmt Op Kind Label)
  | declare (x : Nat) (initial : Option (Expr Op))
  | assign (x : Nat) (e : Expr Op)
  | effect (kind : Kind) (operands : Exprs Op) (result : Option Nat)
  | mark (label : Label) (xs : List Nat)
  | ifElse (condition : Cond Op) (yes no : Stmt Op Kind Label)
  | whileTrue (body : Stmt Op Kind Label)
  | «continue»
  | «break»
  | ret (operands : Exprs Op)
  | unreachable
  /-- An `else` that follows no `if`, which is no program. -/
  | danglingElse (body : Stmt Op Kind Label)

inductive Signal (Word : Type)
  | normal
  | continued
  | broken
  | returned (words : List Word)
  deriving DecidableEq

structure State (Kind Label Word Mem : Type) where
  vars : Vars Word
  world : World Kind Label Word Mem

section Runs
variable {Op Kind Label Word Mem : Type}

def State.set (st : State Kind Label Word Mem) (x : Nat) (word : Option Word) :
    State Kind Label Word Mem :=
  { st with vars := Function.update st.vars x (some word) }

/-- The end of a block: what was not declared before it is forgotten. -/
def State.leave (st : State Kind Label Word Mem) (outer : Vars Word) : State Kind Label Word Mem :=
  { st with vars := fun x => if (outer x).isSome then st.vars x else none }

def andThen (before : Option (Signal Word × State Kind Label Word Mem))
    (next : State Kind Label Word Mem → Option (Signal Word × State Kind Label Word Mem)) :
    Option (Signal Word × State Kind Label Word Mem) :=
  match before with
  | some (.normal, st) => next st
  | other => other

def Stmt.exec [DecidableEq Word] (m : Machine Op Kind Word Mem) (fuel : Nat) :
    Stmt Op Kind Label → State Kind Label Word Mem →
      Option (Signal Word × State Kind Label Word Mem)
  | .skip, st => some (.normal, st)
  | .seq first second, st => andThen (first.exec m fuel st) (second.exec m fuel)
  | .declare x none, st => some (.normal, st.set x none)
  | .declare x (some e), st =>
      (e.eval m st.vars st.world.mem).map fun word => (.normal, st.set x (some word))
  | .assign x e, st =>
      if (st.vars x).isSome then
        (e.eval m st.vars st.world.mem).map fun word => (.normal, st.set x (some word))
      else none
  | .effect kind operands result, st =>
      (operands.eval m st.vars st.world.mem).map fun words =>
        let after := st.world.perform m kind words
        let st' : State Kind Label Word Mem := { st with world := after.1 }
        (.normal, result.elim st' fun x => st'.set x (some after.2))
  | .mark label xs, st =>
      (xs.mapM fun x => (st.vars x).join).map fun words =>
        (.normal, { st with world := st.world.record (.marked label words) })
  | .ifElse condition yes no, st =>
      (condition.eval m st.vars st.world.mem).bind fun holds =>
        ((if holds then yes.exec m fuel st else no.exec m fuel st)).map fun r =>
          (r.1, r.2.leave st.vars)
  | .whileTrue body, st =>
      loopWhile (fun st => (body.exec m fuel st).map fun r =>
        match r.1 with
        | .normal | .continued => .inl (r.2.leave st.vars)
        | .broken => .inr (.normal, r.2.leave st.vars)
        | .returned words => .inr (.returned words, r.2.leave st.vars)) fuel st
  | .continue, st => some (.continued, st)
  | .break, st => some (.broken, st)
  | .ret operands, st =>
      (operands.eval m st.vars st.world.mem).map fun words => (.returned words, st)
  | .unreachable, _ => none
  | .danglingElse _, _ => none

/-- A text of statements, in their order. -/
def Stmt.block : List (Stmt Op Kind Label) → Stmt Op Kind Label
  | [] => .skip
  | first :: rest => .seq first (Stmt.block rest)

variable [DecidableEq Word] (m : Machine Op Kind Word Mem) (fuel : Nat)

omit [DecidableEq Word] in
theorem andThen_assoc (before : Option (Signal Word × State Kind Label Word Mem))
    (f g : State Kind Label Word Mem → Option (Signal Word × State Kind Label Word Mem)) :
    andThen (andThen before f) g = andThen before fun st => andThen (f st) g := by
  cases before with
  | none => rfl
  | some result =>
      obtain ⟨signal, st⟩ := result
      cases signal <;> rfl

theorem exec_append (first second : List (Stmt Op Kind Label)) (st : State Kind Label Word Mem) :
    (Stmt.block (first ++ second)).exec m fuel st
      = andThen ((Stmt.block first).exec m fuel st) ((Stmt.block second).exec m fuel) := by
  induction first generalizing st with
  | nil => rfl
  | cons head rest ih =>
      have unfolded : (fun st => (Stmt.block (rest ++ second)).exec m fuel st)
          = fun st => andThen ((Stmt.block rest).exec m fuel st) ((Stmt.block second).exec m fuel) :=
        funext ih
      change andThen (head.exec m fuel st) (fun st => (Stmt.block (rest ++ second)).exec m fuel st) = _
      rw [unfolded, ← andThen_assoc]
      rfl

theorem exec_singleton (s : Stmt Op Kind Label) (st : State Kind Label Word Mem) :
    (Stmt.block [s]).exec m fuel st = s.exec m fuel st := by
  change andThen (s.exec m fuel st) (fun st => some (.normal, st)) = _
  cases s.exec m fuel st with
  | none => rfl
  | some result =>
      obtain ⟨signal, st'⟩ := result
      cases signal <;> rfl

/-- A text that ends normally is followed by what stands after it. -/
theorem exec_append_normal {first second : List (Stmt Op Kind Label)}
    {st st' : State Kind Label Word Mem}
    (ran : (Stmt.block first).exec m fuel st = some (.normal, st')) :
    (Stmt.block (first ++ second)).exec m fuel st = (Stmt.block second).exec m fuel st' := by
  rw [exec_append, ran]
  rfl

end Runs

end Imperative
