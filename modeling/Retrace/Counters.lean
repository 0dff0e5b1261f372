/-!
# Counters of a run

Steps, calls and the deepest call stack. A run is finished at most once: counters that were not
started are never finished, and starting again begins at zero.
-/

namespace Retrace

/-- Counters of a run. -/
structure Counters where
  started : Bool
  finished : Bool
  totalSteps : Nat
  functionCalls : Nat
  maxStackDepth : Nat
deriving DecidableEq, Repr

namespace Counters

/-- Counters of no run. -/
def zero : Counters := ⟨false, false, 0, 0, 0⟩

/-- Counters at the start of a run. -/
def start : Counters := { zero with started := true }

/-- The run is over. -/
def finish (c : Counters) : Counters := { c with finished := c.finished || c.started }

def countStep (c : Counters) : Counters := { c with totalSteps := c.totalSteps + 1 }

def countCall (c : Counters) : Counters := { c with functionCalls := c.functionCalls + 1 }

/-- Takes notice of the depth of a call stack. -/
def observeDepth (c : Counters) (depth : Nat) : Counters :=
  { c with maxStackDepth := max c.maxStackDepth depth }

end Counters

end Retrace
