import Mathlib.Data.Nat.Basic

/-!
# Results from some fuel on

A function that recurs on fuel settles on a result when all that has enough fuel gives it. Whatever is
put together from parts that settle settles, too, with no account of how much fuel each part takes.
-/

set_option autoImplicit false

namespace Fuelled

variable {ε α β : Type}

/-- From some fuel on, this is the result. -/
def Settles (f : Nat → α) (result : α) : Prop := ∃ enough, ∀ fuel, enough ≤ fuel → f fuel = result

theorem Settles.const (result : α) : Settles (fun _ => result) result := ⟨0, fun _ _ => rfl⟩

/-- One step of fuel more or less makes no difference. -/
theorem Settles.of_succ {f : Nat → α} {result : α} (settles : Settles (fun fuel => f (fuel + 1)) result) :
    Settles f result := by
  obtain ⟨enough, settles⟩ := settles
  refine ⟨enough + 1, fun fuel more => ?_⟩
  cases fuel with
  | zero => exact absurd more (Nat.not_succ_le_zero enough)
  | succ fuel => exact settles fuel (Nat.le_of_succ_le_succ more)

theorem Settles.bind {f : Nat → Except ε α} {g : Nat → α → Except ε β} {a : α} {result : Except ε β}
    (first : Settles f (.ok a)) (rest : Settles (fun fuel => g fuel a) result) :
    Settles (fun fuel => f fuel >>= g fuel) result := by
  obtain ⟨enough, first⟩ := first
  obtain ⟨enough', rest⟩ := rest
  refine ⟨max enough enough', fun fuel more => ?_⟩
  change f fuel >>= g fuel = result
  rw [first fuel (by omega)]
  exact rest fuel (by omega)

theorem Settles.unique {f : Nat → α} {first second : α} (settles : Settles f first)
    (settles' : Settles f second) : first = second := by
  obtain ⟨enough, settles⟩ := settles
  obtain ⟨enough', settles'⟩ := settles'
  rw [← settles (max enough enough') (by omega), settles' (max enough enough') (by omega)]

end Fuelled
