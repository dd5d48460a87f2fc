import Mathlib.Data.List.Basic

/-!
# Runs that may fail

Inversion of `do` blocks over `Except`, the invariant rules of loops in it, and
the count of what is left to do, which bounds the depth of a recursion.
-/

set_option autoImplicit false

namespace Fallible

variable {ε α β σ : Type}

theorem bind_eq_ok {x : Except ε α} {f : α → Except ε β} {b : β} :
    (x >>= f) = .ok b ↔ ∃ a, x = .ok a ∧ f a = .ok b := by
  cases x with
  | error e => simp [bind, Except.bind]
  | ok a => simp [bind, Except.bind]

theorem pure_eq_ok {a b : α} : (pure a : Except ε α) = .ok b ↔ a = b := by
  simp [pure, Except.pure]

/-- What each successful step keeps, a successful loop keeps. -/
theorem foldlM_keeps {step : σ → α → Except ε σ} (P : σ → Prop) {items : List α}
    (keeps : ∀ item ∈ items, ∀ s s', P s → step s item = .ok s' → P s')
    {s s' : σ} (start : P s) (run : items.foldlM step s = .ok s') : P s' := by
  induction items generalizing s with
  | nil =>
      rw [List.foldlM_nil, pure_eq_ok] at run
      exact run ▸ start
  | cons item items ih =>
      rw [List.foldlM_cons, bind_eq_ok] at run
      obtain ⟨next, first, rest⟩ := run
      exact ih (fun item member => keeps item (List.mem_cons_of_mem _ member))
        (keeps item List.mem_cons_self s next start first) rest

/-- A loop whose steps succeed, as long as `P` holds, succeeds and keeps `P`. -/
theorem foldlM_succeeds {step : σ → α → Except ε σ} (P : σ → Prop) {items : List α}
    (succeeds : ∀ item ∈ items, ∀ s, P s → ∃ s', step s item = .ok s' ∧ P s')
    {s : σ} (start : P s) : ∃ s', items.foldlM step s = .ok s' ∧ P s' := by
  induction items generalizing s with
  | nil => exact ⟨s, by rw [List.foldlM_nil]; rfl, start⟩
  | cons item items ih =>
      obtain ⟨next, first, kept⟩ := succeeds item List.mem_cons_self s start
      obtain ⟨final, rest, done⟩ :=
        ih (fun item member => succeeds item (List.mem_cons_of_mem _ member)) kept
      exact ⟨final, by rw [List.foldlM_cons, first]; exact rest, done⟩

/-- What each step of a successful loop establishes for its item, and later steps keep, holds at
the end for every item. -/
theorem foldlM_each {step : σ → α → Except ε σ} (Later : σ → σ → Prop) (Q : α → σ → Prop)
    (refl : ∀ s, Later s s) (trans : ∀ {s t u}, Later s t → Later t u → Later s u)
    (kept : ∀ item s s', Q item s → Later s s' → Q item s') {items : List α}
    (each : ∀ item ∈ items, ∀ s s', step s item = .ok s' → Later s s' ∧ Q item s')
    {s s' : σ} (run : items.foldlM step s = .ok s') : Later s s' ∧ ∀ item ∈ items, Q item s' := by
  induction items generalizing s with
  | nil =>
      rw [List.foldlM_nil, pure_eq_ok] at run
      exact ⟨run ▸ refl s, nofun⟩
  | cons item items ih =>
      rw [List.foldlM_cons, bind_eq_ok] at run
      obtain ⟨next, first, rest⟩ := run
      have here := each item List.mem_cons_self s next first
      have there := ih (fun item member => each item (List.mem_cons_of_mem _ member)) rest
      constructor
      · exact trans here.1 there.1
      · intro other member
        cases List.mem_cons.mp member with
        | inl same => exact kept other next s' (same ▸ here.2) there.1
        | inr later => exact there.2 other later

theorem bind_eq_error {x : Except ε α} {f : α → Except ε β} {e : ε} :
    (x >>= f) = .error e ↔ x = .error e ∨ ∃ a, x = .ok a ∧ f a = .error e := by
  cases x with
  | error e' => simp [bind, Except.bind]
  | ok a => simp [bind, Except.bind]

/-- A loop fails in one of its steps. -/
theorem foldlM_error {step : σ → α → Except ε σ} {items : List α} {s : σ} {e : ε}
    (run : items.foldlM step s = .error e) : ∃ item ∈ items, ∃ s', step s' item = .error e := by
  induction items generalizing s with
  | nil => cases run
  | cons item items ih =>
      rw [List.foldlM_cons, bind_eq_error] at run
      cases run with
      | inl here => exact ⟨item, List.mem_cons_self, s, here⟩
      | inr later =>
          obtain ⟨next, -, rest⟩ := later
          obtain ⟨other, member, failing⟩ := ih rest
          exact ⟨other, List.mem_cons_of_mem _ member, failing⟩

/-- Each result of a successful `mapM` comes from one of the items. -/
theorem mem_of_mapM {f : α → Except ε β} {items : List α} {results : List β}
    (run : items.mapM f = .ok results) : ∀ b ∈ results, ∃ a ∈ items, f a = .ok b := by
  induction items generalizing results with
  | nil =>
      rw [List.mapM_nil, pure_eq_ok] at run
      simp [← run]
  | cons item items ih =>
      rw [List.mapM_cons, bind_eq_ok] at run
      obtain ⟨first, ranFirst, run⟩ := run
      rw [bind_eq_ok] at run
      obtain ⟨rest, ranRest, run⟩ := run
      obtain rfl := pure_eq_ok.mp run
      intro b member
      rcases List.mem_cons.mp member with rfl | later
      · exact ⟨item, List.mem_cons_self, ranFirst⟩
      · obtain ⟨a, inside, ranA⟩ := ih ranRest b later
        exact ⟨a, List.mem_cons_of_mem _ inside, ranA⟩

/-- Each item of a successful `mapM` has its result. -/
theorem mem_mapM_of_mem {f : α → Except ε β} {items : List α} {results : List β}
    (run : items.mapM f = .ok results) : ∀ a ∈ items, ∃ b ∈ results, f a = .ok b := by
  induction items generalizing results with
  | nil => exact nofun
  | cons item items ih =>
      rw [List.mapM_cons, bind_eq_ok] at run
      obtain ⟨first, ranFirst, run⟩ := run
      rw [bind_eq_ok] at run
      obtain ⟨rest, ranRest, run⟩ := run
      obtain rfl := pure_eq_ok.mp run
      intro a member
      cases List.mem_cons.mp member with
      | inl same => exact ⟨first, List.mem_cons_self, same ▸ ranFirst⟩
      | inr later =>
          obtain ⟨b, inside, ranA⟩ := ih ranRest a later
          exact ⟨b, List.mem_cons_of_mem _ inside, ranA⟩

theorem mem_of_mapM_some {f : α → Option β} {items : List α} {results : List β}
    (run : items.mapM f = some results) : ∀ b ∈ results, ∃ a ∈ items, f a = some b := by
  induction items generalizing results with
  | nil =>
      cases run
      simp
  | cons item items ih =>
      simp only [List.mapM_cons, Option.bind_eq_bind, Option.bind_eq_some_iff] at run
      obtain ⟨first, ranFirst, rest, ranRest, equal⟩ := run
      cases equal
      intro b member
      cases List.mem_cons.mp member with
      | inl head => exact ⟨item, List.mem_cons_self, head ▸ ranFirst⟩
      | inr later =>
          obtain ⟨a, inside, ranA⟩ := ih ranRest b later
          exact ⟨a, List.mem_cons_of_mem _ inside, ranA⟩

theorem mapM_succeeds {f : α → Except ε β} {items : List α}
    (each : ∀ a ∈ items, ∃ b, f a = .ok b) : ∃ results, items.mapM f = .ok results := by
  induction items with
  | nil => exact ⟨[], rfl⟩
  | cons item items ih =>
      obtain ⟨first, ran⟩ := each item List.mem_cons_self
      obtain ⟨rest, ranRest⟩ := ih fun a member => each a (List.mem_cons_of_mem _ member)
      refine ⟨first :: rest, ?_⟩
      rw [List.mapM_cons, ran, ranRest]
      rfl

theorem forM_eq_ok {check : α → Except ε Unit} {items : List α} :
    items.forM check = .ok () ↔ ∀ item ∈ items, check item = .ok () := by
  induction items with
  | nil => simp only [List.not_mem_nil, false_implies, implies_true, iff_true]; rfl
  | cons item items ih =>
      change (check item >>= fun _ => items.forM check) = .ok () ↔ _
      rw [bind_eq_ok, List.forall_mem_cons, ← ih]
      constructor
      · rintro ⟨⟨⟩, first, rest⟩
        exact ⟨first, rest⟩
      · rintro ⟨first, rest⟩
        exact ⟨(), first, rest⟩

/-- Fewer items are left when one of them is done and none comes back. -/
theorem countP_lt {p q : α → Bool} {items : List α} (mono : ∀ a ∈ items, p a → q a)
    {x : α} (member : x ∈ items) (done : p x = false) (todo : q x = true) :
    items.countP p < items.countP q := by
  induction items with
  | nil => simp at member
  | cons item items ih =>
      rw [List.countP_cons, List.countP_cons]
      have rest : ∀ a ∈ items, p a → q a := fun a inside => mono a (List.mem_cons_of_mem _ inside)
      rcases List.mem_cons.mp member with rfl | later
      · have := List.countP_mono_left (l := items) (p := p) (q := q) rest
        simp only [done, todo, if_true, Bool.false_eq_true, if_false]
        omega
      · have fewer := ih rest later
        have first := mono item List.mem_cons_self
        split_ifs with left right
        · omega
        · exact absurd (first left) right
        · omega
        · omega

end Fallible
