import Retrace.Snapshot
/-!
# Probes

What a running program lets be seen from outside: where it stands, its scopes and frames, and its
whole state as a document if it can give one. Snapshots are made from this and nothing else.
-/

namespace Retrace

/-- What can be seen of a running program. -/
structure Probe where
  /-- Where the program stands; nowhere if nothing is loaded or the run is over. -/
  position : Option Position
  scopes : List Scope
  frames : List Frame
  /-- The whole state as a document. -/
  serialized : Option String

end Retrace
