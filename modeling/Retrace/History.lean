import Retrace.Probe
/-!
# History

The snapshots of a run that are retained, oldest first, with a cursor on one of them. A new snapshot
goes right after the cursor: what lay ahead of the cursor is dropped, and if the history is full the
oldest snapshot is evicted. The first eviction since the last `clear` is announced.

Every `interval`-th capture carries a checkpoint, the first one included. The count goes by captures
and not by places in the history, so evictions do not disturb it.
-/

namespace Retrace

/-- The bounds of a history. -/
structure HistoryConfig where
  maxHistory : Nat
  checkpointInterval : Nat
deriving DecidableEq, Repr

/-- Retained snapshots with a cursor. -/
structure History where
  /-- The snapshots, oldest first. -/
  retained : Array Snapshot
  /-- The index of the current snapshot, none while there is none. -/
  cursor : Option Nat
  /-- The most snapshots retained. -/
  capacity : Nat
  /-- The captures from one checkpoint to the next. -/
  interval : Nat
  /-- The captures since the last clear. -/
  captures : Nat
  /-- Whether the first eviction has been announced. -/
  limitShown : Bool

namespace History

/-- An empty history; bounds of zero count as one. -/
def empty (config : HistoryConfig) : History :=
  ⟨#[], none, max config.maxHistory 1, max config.checkpointInterval 1, 0, false⟩

def size (h : History) : Nat := h.retained.size

/-- The snapshot under the cursor. -/
def current? (h : History) : Option Snapshot := h.cursor.bind fun i => h.retained[i]?

def canStepBack (h : History) : Bool := h.cursor.any (0 < ·)

def canStepForward (h : History) : Bool := h.cursor.any (· + 1 < h.size)

/-- Drops the snapshots ahead of the cursor. -/
def dropAhead (h : History) : History :=
  match h.cursor with
  | some i => { h with retained := h.retained.take (i + 1) }
  | none => h

/-- Appends a snapshot after the cursor and moves the cursor onto it. The second part is the capacity
if an eviction is to be announced. -/
def append (h : History) (s : Snapshot) : History × Option Nat :=
  let h := h.dropAhead
  let full := h.capacity ≤ h.size
  let kept := if full then h.retained.drop 1 else h.retained
  let announce := full && !h.limitShown
  ({ h with
      retained := kept.push s
      cursor := some kept.size
      limitShown := h.limitShown || full },
    if announce then some h.capacity else none)

/-- Captures what a probe shows, unless it shows no position. The parts are the new history, the
capacity if an eviction is to be announced, and the snapshot. -/
def capture (h : History) (probe : Option Probe) : History × Option Nat × Option Snapshot :=
  match probe with
  | none => (h, none, none)
  | some probe =>
    match probe.position with
    | none => (h, none, none)
    | some position =>
      let checkpoint := if h.captures % h.interval = 0 then probe.serialized else none
      let s : Snapshot := ⟨position, probe.scopes, probe.frames, checkpoint⟩
      let (h, announced) := { h with captures := h.captures + 1 }.append s
      (h, announced, some s)

/-- Moves the cursor one snapshot back, if it can, and gives the snapshot it comes to. -/
def stepBack (h : History) : History × Option Snapshot :=
  if h.canStepBack then
    let h := { h with cursor := h.cursor.map (· - 1) }
    (h, h.current?)
  else (h, none)

/-- Moves the cursor one snapshot forward, if it can, and gives the snapshot it comes to. -/
def stepForward (h : History) : History × Option Snapshot :=
  if h.canStepForward then
    let h := { h with cursor := h.cursor.map (· + 1) }
    (h, h.current?)
  else (h, none)

def arrays (h : History) : List ArrayVariable := h.current?.elim [] Snapshot.arrays

/-- Drops all snapshots and forgets that an eviction was announced. -/
def clear (h : History) : History :=
  { h with retained := #[], cursor := none, captures := 0, limitShown := false }

end History

end Retrace
