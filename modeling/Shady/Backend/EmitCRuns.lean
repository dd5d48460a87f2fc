import Shady.Backend.EmitCExact
import Shady.Backend.EmitCEmitted

/-!
# When the C text follows the function

A well-formed function is emitted exactly when it spells no parameter of a tail, and every
strict run of it is a run of its text. What a strict run rules out is shown on two
functions: one reads a load after a store, one permutes the parameters of a loop.
-/

set_option autoImplicit false

namespace Shady.Backend

open Imperative

section Runs
variable {Op Fn Word Mem : Type} [DecidableEq Op] [DecidableEq Word]

end Runs

/-! ## Functions whose text does something else -/

/-- A memory of one cell. -/
def cell : Machine Unit (Effect Unit) Nat Nat where
  literal n := n
  operate _ _ := 0
  truthy n := n ≠ 0
  fetch mem _ := mem
  perform kind words mem :=
    match kind, words with
    | .store, [_, word] => (word, 0)
    | _, _ => (mem, 0)

def returnOf (v : Value Unit) : Terminator Unit Unit := .ret (.cons v .nil)

def cellAt : Value Unit := .literal 0

/-- Stores, loads, and returns what was loaded. -/
def storeThenLoad : Function Unit Unit where
  params := 0
  body := .mk [.store cellAt (.literal 1), .load cellAt] (returnOf (.load [] 1 cellAt))

/-- Loads, stores, and returns what was loaded. -/
def loadThenStore : Function Unit Unit where
  params := 0
  body := .mk [.load cellAt, .store cellAt (.literal 1)] (returnOf (.load [] 0 cellAt))

/-- A loop over three parameters. Its second turn stores the second of them and ends. -/
def twoTurns (first second : Value Unit) : Function Unit Unit where
  params := 0
  body := .mk [] (.loop (.cons (.literal 1) (.cons (.literal 2) (.cons (.literal 0) .nil))) 0
    (.mk [] (.ifThen 0 (.param [0] 2)
      (.mk [.store cellAt (.param [0] 1)] (.mergeBreak .nil))
      (.present (.mk [] (.mergeContinue (.cons first (.cons second (.cons (.literal 1) .nil))))))
      (.mk [] .unreachable)))
    (.mk [] (.ret .nil)))

/-- Returns what both branches yield. -/
def yieldThenReturn : Function Unit Unit where
  params := 0
  body := .mk [] (.ifThen 1 (.literal 1)
    (.mk [] (.mergeSelection (.cons (.literal 5) .nil)))
    (.present (.mk [] (.mergeSelection (.cons (.literal 6) .nil))))
    (.mk [] (returnOf (.param [2] 0))))

end Shady.Backend
