import Mathlib.Data.Option.Basic

/-!
# Runs of a system that steps

A system has its initial states and a step for each operation, which fails where
the operation is not possible. A run is restricted by a condition on each step,
the state before it included.
-/

set_option autoImplicit false

namespace Transition

structure System (σ ι : Type*) where
  initial : σ → Prop
  step : σ → ι → Option σ

variable {σ ι : Type*} (sys : System σ ι)

/-- The states of the runs whose steps are all allowed. -/
inductive Reached (allowed : σ → ι → Prop) : σ → Prop
  | start {s : σ} (isInitial : sys.initial s) : Reached allowed s
  | next {s s' : σ} {op : ι} (before : Reached allowed s) (permitted : allowed s op)
      (stepped : sys.step s op = some s') : Reached allowed s'

/-- No step is excluded. -/
def anyStep : σ → ι → Prop := fun _ _ => True

variable {sys} {allowed : σ → ι → Prop}

/-- What holds at the start and is kept by each allowed step holds in every state reached. -/
theorem Reached.invariant {P : σ → Prop} (start : ∀ s, sys.initial s → P s)
    (keeps : ∀ s op s', P s → allowed s op → sys.step s op = some s' → P s')
    {s : σ} (reached : Reached sys allowed s) : P s := by
  induction reached with
  | start isInitial => exact start _ isInitial
  | next before permitted stepped ih => exact keeps _ _ _ ih permitted stepped

/-- The operations in turn, each of which has to be allowed. -/
def run (sys : System σ ι) (allowed : σ → ι → Bool) : List ι → σ → Option σ
  | [], s => some s
  | op :: ops, s => if allowed s op then (sys.step s op).bind (run sys allowed ops) else none

theorem Reached.of_run {permits : σ → ι → Bool}
    (sound : ∀ s op, permits s op = true → allowed s op) (ops : List ι) {s s' : σ}
    (reached : Reached sys allowed s) (ran : run sys permits ops s = some s') :
    Reached sys allowed s' := by
  induction ops generalizing s with
  | nil =>
      cases ran
      exact reached
  | cons op ops ih =>
      simp only [run, Option.ite_none_right_eq_some, Option.bind_eq_some_iff] at ran
      obtain ⟨permitted, next, stepped, rest⟩ := ran
      exact ih (reached.next (sound s op permitted) stepped) rest

end Transition
