import Retrace.Snapshot
import Retrace.Failure
/-!
# Recorded traces

A trace is the recording of a run: one entry for each small step, with the place in the source, the
call stack and the variables. An entry may carry an error, which the replay raises on reaching it.

A *line run* is a maximal block of entries on one line; an entry without a line belongs to the run
before it. `lineCount` counts them, and with it the steps of a replay that goes line by line.
-/

namespace Retrace

open Json (Tree Decoder)

/-- One recorded step. -/
structure Entry where
  line : Option Nat
  column : Option Nat
  nodeType : Option String
  /-- The call stack, innermost frame first. -/
  frames : List Frame
  /-- The scope chain, innermost scope first. -/
  scopes : List Scope
  /-- The error raised on reaching the entry. -/
  error : Option String

namespace Entry

/-- The entry that says nothing. -/
def blank : Entry := ⟨none, none, none, [], [], none⟩

/-- An entry that gives only a line. -/
def ofLine (line : Nat) : Entry := { blank with line := some line }

end Entry

/-- The recording of a run. -/
structure Trace where
  entries : Array Entry

namespace Trace

/-- Whether an entry on `line` opens a new run after the line `previous`. -/
def opensRun (previous line : Option Nat) : Bool := line.isSome && line != previous

/-- The number of line runs. -/
def lineCount (t : Trace) : Nat :=
  let (count, _) := t.entries.foldl
    (fun (count, previous) e =>
      if opensRun previous e.line then (count + 1, e.line) else (count, previous))
    (0, none)
  count

/-- The depth of the deepest call stack. -/
def maxDepth (t : Trace) : Nat := t.entries.foldl (fun deepest e => max deepest e.frames.length) 0

end Trace

/-- A variable recorded without a text to show gets one, and its kind with it: from its value, unless
it was recorded as a function. -/
def Variable.completed (v : Variable) : Variable :=
  if v.display = "" then
    if v.kind = .function then .ofFunction v.name else .ofValue v.name v.value
  else v

def Scope.completed (s : Scope) : Scope := { s with bindings := s.bindings.map Variable.completed }

def Entry.completed (e : Entry) : Entry := { e with scopes := e.scopes.map Scope.completed }

def Trace.completed (t : Trace) : Trace := ⟨t.entries.map Entry.completed⟩

end Retrace
