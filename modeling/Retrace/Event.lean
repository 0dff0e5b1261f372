import Retrace.Playback.Status
import Retrace.CallEvent
import Retrace.Failure
/-!
# Events

What observers of a session are told, in the order it happens.
-/

namespace Retrace

/-- Something observers are told. -/
inductive Event where
  /-- Playback entered a state. -/
  | status (s : Status)
  /-- A step found no more to do. -/
  | completed
  | failed (e : SessionFailure)
  | warning (text : String)
  /-- The history dropped a snapshot for the first time; it retains at most `capacity`. -/
  | historyLimit (capacity : Nat)
  /-- A snapshot was captured or returned to. -/
  | snapshot (s : Snapshot)
  /-- The call tree changed. -/
  | call (c : CallEvent)

end Retrace
