import Mathlib.Data.List.Basic

/-!
# Scopes

A scope tells what each name stands for. A declaration shadows what the name stood for before it, and
a stack of declarations, the last one on top, tells the same when its first match is taken.
-/

set_option autoImplicit false

namespace Scoping

variable {N D : Type} [DecidableEq N]

/-- What each name stands for. -/
abbrev Scope (N D : Type) := N → Option D

def Scope.declare (scope : Scope N D) (name : N) (d : D) : Scope N D :=
  fun other => if other = name then some d else scope other

def Scope.declareAll (scope : Scope N D) : List (N × D) → Scope N D
  | [] => scope
  | (name, d) :: rest => (scope.declare name d).declareAll rest

@[simp] theorem Scope.declare_self (scope : Scope N D) (name : N) (d : D) :
    scope.declare name d name = some d := if_pos rfl

@[simp] theorem Scope.declare_other (scope : Scope N D) {name other : N} (d : D)
    (differ : other ≠ name) : scope.declare name d other = scope other := if_neg differ

/-- The first match of a stack of declarations, or what is known outside of it. -/
def inScope (stack : List (N × D)) (outer : Scope N D) : Scope N D := fun name =>
  match stack.find? (fun entry => entry.1 = name) with
  | some entry => some entry.2
  | none => outer name

@[simp] theorem inScope_nil (outer : Scope N D) : inScope [] outer = outer := rfl

/-- The declaration on top shadows the others. -/
theorem inScope_cons (name : N) (d : D) (stack : List (N × D)) (outer : Scope N D) :
    inScope ((name, d) :: stack) outer = (inScope stack outer).declare name d := by
  funext other
  by_cases same : other = name
  · rw [same, Scope.declare_self, inScope, List.find?_cons_of_pos (by simp)]
  · rw [Scope.declare_other _ _ same, inScope, List.find?_cons_of_neg (by simpa using Ne.symm same)]
    rfl

/-- Declarations are pushed one by one. -/
def push (stack : List (N × D)) : List (N × D) → List (N × D)
  | [] => stack
  | entry :: rest => push (entry :: stack) rest

theorem inScope_push (stack entries : List (N × D)) (outer : Scope N D) :
    inScope (push stack entries) outer = (inScope stack outer).declareAll entries := by
  induction entries generalizing stack with
  | nil => rfl
  | cons entry rest ih =>
      rw [push, ih, Scope.declareAll, inScope_cons]

end Scoping
