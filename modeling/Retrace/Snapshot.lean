import Retrace.Variable
import Retrace.Frame
import Retrace.Timestamp
/-!
# Snapshots

What is kept of a program's state after a step: where it stands, the scope chain and the call stack,
both innermost first, and now and then a checkpoint from which the state can be rebuilt.
-/

namespace Retrace

open Json (Value Tree Decoder)

/-- Where a program stands. -/
structure Position where
  /-- The steps taken so far. -/
  stepNumber : Nat
  line : Option Nat
  column : Option Nat
  /-- The kind of syntax node being evaluated. -/
  nodeType : Option String
deriving DecidableEq, Repr

/-- The state after a step. -/
structure Snapshot where
  position : Position
  scopes : List Scope
  frames : List Frame
  checkpoint : Option String

/-- An array found in a snapshot. -/
structure ArrayVariable where
  name : String
  items : List Value
  /-- The name of the scope it was found in. -/
  scope : String

namespace Snapshot

/-- The names that every function has, which are not counted among its arrays. -/
def implicitNames : List String := ["arguments", "callee", "caller"]

def depth (s : Snapshot) : Nat := s.frames.length

def innermostFrame? (s : Snapshot) : Option Frame := s.frames.head?

def innermostScope? (s : Snapshot) : Option Scope := s.scopes.head?

def hasCheckpoint (s : Snapshot) : Bool := s.checkpoint.isSome

/-- The arrays of the whole scope chain, innermost first, implicit names left out. -/
def arrays (s : Snapshot) : List ArrayVariable :=
  s.scopes.flatMap fun scope =>
    scope.bindings.filterMap fun v =>
      if implicitNames.contains v.name then none
      else v.arrayItems?.map fun items => ⟨v.name, items, scope.name⟩

/-- The members of a snapshot's document. -/
def members (s : Snapshot) : List (String × Tree) :=
  [("step_number", .nat s.position.stepNumber),
    ("line", .orNull .nat s.position.line),
    ("column", .orNull .nat s.position.column)]
  ++ (match s.position.nodeType with | some n => [("node_type", .text n)] | none => [])
  ++ [("variables", .array (s.scopes.map Scope.tree)),
    ("call_stack", .array (s.frames.map Frame.tree))]
  ++ (match s.checkpoint with | some c => [("checkpoint", .text c)] | none => [])

/-- Reads a snapshot together with the time of its capture. -/
def decoder : Decoder (Snapshot × Timestamp) := fun depth t => do
  let r ← t.record? ["step_number", "line", "column", "node_type", "variables", "call_stack",
    "checkpoint", "timestamp"] depth
  let stepNumber ← r.required "step_number" .nat
  let line ← r.optional "line" .nat
  let column ← r.optional "column" .nat
  let nodeType ← r.withDefault "node_type" none (.option .string)
  let scopes ← r.required "variables" (.list Scope.decoder)
  let frames ← r.required "call_stack" (.list Frame.decoder)
  let checkpoint ← r.withDefault "checkpoint" none (.option .string)
  let time ← (← r.required "timestamp" .string) |> Timestamp.parse?
  some (⟨⟨stepNumber, line, column, nodeType⟩, scopes, frames, checkpoint⟩, time)

end Snapshot

end Retrace
