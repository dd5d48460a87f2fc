import Shady.Library.Fallible

/-!
# Runs with a state

Inversion of `do` blocks of programs that change a state and may fail, and the rules of their loops.
-/

set_option autoImplicit false

namespace Stateful

open Fallible

variable {σ ε α β : Type}

abbrev Prog (σ ε : Type) := StateT σ (Except ε)

theorem run_bind_eq_ok {x : Prog σ ε α} {f : α → Prog σ ε β} {s s'' : σ} {b : β} :
    (x >>= f).run s = .ok (b, s'') ↔
      ∃ a s', x.run s = .ok (a, s') ∧ (f a).run s' = .ok (b, s'') := by
  change (x.run s >>= fun result => (f result.1).run result.2) = .ok (b, s'') ↔ _
  rw [bind_eq_ok]
  constructor
  · rintro ⟨⟨a, s'⟩, first, rest⟩
    exact ⟨a, s', first, rest⟩
  · rintro ⟨a, s', first, rest⟩
    exact ⟨(a, s'), first, rest⟩

theorem run_bind_of_ok {x : Prog σ ε α} {f : α → Prog σ ε β} {s s' : σ} {a : α}
    (first : x.run s = .ok (a, s')) : (x >>= f).run s = (f a).run s' := by
  change (x.run s >>= fun result => (f result.1).run result.2) = _
  rw [first]
  rfl

theorem run_get (s : σ) : (get : Prog σ ε σ).run s = .ok (s, s) := rfl

theorem run_modify (f : σ → σ) (s : σ) : (modify f : Prog σ ε PUnit).run s = .ok ((), f s) := rfl

theorem run_pure_eq_ok {a b : α} {s s' : σ} :
    (pure a : Prog σ ε α).run s = .ok (b, s') ↔ a = b ∧ s = s' := by
  constructor
  · intro run
    cases run
    exact ⟨rfl, rfl⟩
  · rintro ⟨rfl, rfl⟩
    rfl

theorem run_throw_eq_ok {e : ε} {b : α} {s s' : σ} :
    (throw e : Prog σ ε α).run s = .ok (b, s') ↔ False := by
  constructor
  · intro run
    exact nomatch run
  · exact False.elim

theorem run_get_eq_ok {s s' b : σ} : (get : Prog σ ε σ).run s = .ok (b, s') ↔ s = b ∧ s = s' := by
  constructor
  · intro run
    cases run
    exact ⟨rfl, rfl⟩
  · rintro ⟨rfl, rfl⟩
    rfl

theorem run_modify_eq_ok {f : σ → σ} {b : PUnit} {s s' : σ} :
    (modify f : Prog σ ε PUnit).run s = .ok (b, s') ↔ s' = f s := by
  constructor
  · intro run
    cases run
    rfl
  · rintro rfl
    rfl

/-- The runs of a program that succeed lead to a later state. -/
def Moves (Later : σ → σ → Prop) (x : Prog σ ε α) : Prop :=
  ∀ s a s', x.run s = .ok (a, s') → Later s s'

theorem Moves.pure {Later : σ → σ → Prop} (refl : ∀ s, Later s s) (a : α) :
    Moves Later (pure a : Prog σ ε α) := by
  intro s b s' run
  obtain ⟨-, rfl⟩ := run_pure_eq_ok.mp run
  exact refl s

theorem Moves.get {Later : σ → σ → Prop} (refl : ∀ s, Later s s) :
    Moves Later (get : Prog σ ε σ) := by
  intro s b s' run
  obtain ⟨-, rfl⟩ := run_get_eq_ok.mp run
  exact refl s

theorem Moves.throw {Later : σ → σ → Prop} (e : ε) : Moves Later (throw e : Prog σ ε α) := by
  intro s b s' run
  exact absurd run run_throw_eq_ok.mp

theorem Moves.modify {Later : σ → σ → Prop} {f : σ → σ} (each : ∀ s, Later s (f s)) :
    Moves Later (modify f : Prog σ ε PUnit) := by
  intro s b s' run
  rw [run_modify_eq_ok.mp run]
  exact each s

theorem Moves.bind {Later : σ → σ → Prop} (trans : ∀ s t u, Later s t → Later t u → Later s u)
    {x : Prog σ ε α} {f : α → Prog σ ε β} (first : Moves Later x) (rest : ∀ a, Moves Later (f a)) :
    Moves Later (x >>= f) := by
  intro s b s'' run
  obtain ⟨a, s', firstRun, restRun⟩ := run_bind_eq_ok.mp run
  exact trans s s' s'' (first s a s' firstRun) (rest a s' b s'' restRun)

/-- What each step keeps, a loop keeps. -/
theorem forM_keeps {step : α → Prog σ ε PUnit} {Later : σ → σ → Prop} (refl : ∀ s, Later s s)
    (trans : ∀ {s t u}, Later s t → Later t u → Later s u)
    (each : ∀ item s s', (step item).run s = .ok ((), s') → Later s s') {items : List α} :
    ∀ {s s'}, (items.forM step).run s = .ok ((), s') → Later s s' := by
  induction items with
  | nil =>
      intro s s' run
      cases run
      exact refl s
  | cons item rest ih =>
      intro s s' run
      obtain ⟨⟨⟩, next, first, others⟩ := run_bind_eq_ok.mp run
      exact trans (each item s next first) (ih others)

/-- A run stops in one way only, or it ends as told. -/
def Yields (stop : ε) (x : Prog σ ε α) (s : σ) (Q : α → σ → Prop) : Prop :=
  x.run s = .error stop ∨ ∃ a s', x.run s = .ok (a, s') ∧ Q a s'

theorem Yields.pure {stop : ε} {a : α} {s : σ} {Q : α → σ → Prop} (holds : Q a s) :
    Yields stop (pure a) s Q :=
  .inr ⟨a, s, rfl, holds⟩

theorem Yields.get {stop : ε} (s : σ) : Yields stop get s fun a s' => s = a ∧ s = s' :=
  .inr ⟨s, s, rfl, rfl, rfl⟩

theorem Yields.modify {stop : ε} (f : σ → σ) (s : σ) :
    Yields stop (modify f : Prog σ ε PUnit) s fun _ s' => s' = f s :=
  .inr ⟨(), f s, rfl, rfl⟩

theorem Yields.bind {stop : ε} {x : Prog σ ε α} {f : α → Prog σ ε β} {s : σ} {P : α → σ → Prop}
    {Q : β → σ → Prop} (first : Yields stop x s P)
    (rest : ∀ a s', P a s' → Yields stop (f a) s' Q) : Yields stop (x >>= f) s Q := by
  cases first with
  | inl stops =>
      left
      change (x.run s >>= fun result => (f result.1).run result.2) = _
      rw [stops]
      rfl
  | inr ends =>
      obtain ⟨a, s', ran, holds⟩ := ends
      have next := rest a s' holds
      unfold Yields at next ⊢
      rwa [run_bind_of_ok ran]

theorem Yields.mono {stop : ε} {x : Prog σ ε α} {s : σ} {P Q : α → σ → Prop}
    (yields : Yields stop x s P) (weaker : ∀ a s', P a s' → Q a s') : Yields stop x s Q := by
  cases yields with
  | inl stops => exact .inl stops
  | inr ends =>
      obtain ⟨a, s', ran, holds⟩ := ends
      exact .inr ⟨a, s', ran, weaker a s' holds⟩

end Stateful
