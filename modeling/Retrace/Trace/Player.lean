import Retrace.Trace.Document
import Retrace.Probe
/-!
# Playing a trace

A player walks through a trace entry by entry (`microStep`), or line by line (`stepToNextLine`). The
walk ends at the last entry, at an entry that carries an error, or at one of two limits: on the
number of small steps and on the depth of the call stack. A limit is tested on the entry being left,
an error on the entry being reached.

After a failure the player still stands on its entry, and every further step does nothing.
-/

namespace Retrace

/-- What a player may use. -/
structure PlayerLimits where
  /-- The most small steps of a run. -/
  maxSteps : Nat
  /-- The deepest call stack that may be left by a step. -/
  maxStackSize : Nat
deriving DecidableEq, Repr

/-- What came of going on to the next line. -/
structure LineStep where
  /-- Whether there is more to play. -/
  hasMore : Bool
  lineChanged : Bool
  /-- The line reached, if there is one. -/
  newLine : Option Nat
  /-- The small steps spent. -/
  microSteps : Nat
deriving DecidableEq, Repr

/-- The step that finds nothing more to play. -/
def LineStep.finished (microSteps : Nat) : LineStep := ⟨false, false, none, microSteps⟩

/-- A trace being played. -/
structure Player where
  limits : PlayerLimits
  trace : Option Trace
  /-- The index of the entry the player stands on. -/
  position : Nat
  /-- The small steps taken. -/
  stepCount : Nat
  /-- Whether a trace is loaded and not played to its end. -/
  running : Bool
  /-- What stopped the run. -/
  failure : Option RunFailure

namespace Player

/-- A player with nothing loaded. -/
def idle (limits : PlayerLimits) : Player := ⟨limits, none, 0, 0, false, none⟩

/-- Drops the trace and all progress. -/
def reset (p : Player) : Player := idle p.limits

/-- Loads a trace document. A document that is refused leaves nothing loaded but the failure. -/
def load (p : Player) (source : String) : Player × Except RunFailure Unit :=
  match Trace.read source with
  | .ok t => ({ p.reset with trace := some t, running := true }, .ok ())
  | .error e => ({ p.reset with failure := some e }, .error e)

/-- Whether there is nothing more to play. -/
def isDone (p : Player) : Bool := !p.running || p.failure.isSome

/-- The entry the player stands on, unless it has nothing to play or has come to the end. -/
def current? (p : Player) : Option Entry :=
  if p.running then p.trace.bind fun t => t.entries[p.position]? else none

def currentLine? (p : Player) : Option Nat := p.current?.bind Entry.line

def length (p : Player) : Nat := p.trace.elim 0 fun t => t.entries.size

/-- Stops the run with a failure. -/
def fail (p : Player) (e : RunFailure) : Player × Except RunFailure Bool :=
  ({ p with failure := some e }, .error e)

/-- Goes on to the next entry and tells whether there was one. -/
def microStep (p : Player) : Player × Except RunFailure Bool :=
  if p.isDone then (p, .ok false)
  else if p.limits.maxSteps ≤ p.stepCount then p.fail (.stepLimit p.limits.maxSteps)
  else if p.limits.maxStackSize < p.current?.elim 0 (·.frames.length) then
    p.fail (.stackLimit p.limits.maxStackSize)
  else if p.length ≤ p.position + 1 then ({ p with running := false }, .ok false)
  else
    let p := { p with position := p.position + 1, stepCount := p.stepCount + 1 }
    match p.current?.bind Entry.error with
    | some message => p.fail (.runtime message)
    | none => (p, .ok true)

/-- Takes at most `remaining` small steps more, `spent` having been taken, until an entry is reached
whose line is present and not `start`. -/
def walk (start : Option Nat) : (remaining spent : Nat) → Player → Player × Except RunFailure LineStep
  | 0, spent, p => (p, .ok ⟨true, 0 < spent, p.currentLine?, spent⟩)
  | remaining + 1, spent, p =>
    match p.microStep with
    | (p, .error e) => (p, .error e)
    | (p, .ok false) => (p, .ok ⟨false, true, p.currentLine?, spent + 1⟩)
    | (p, .ok true) =>
      let line := p.currentLine?
      if Trace.opensRun start line then (p, .ok ⟨true, true, line, spent + 1⟩)
      else walk start remaining (spent + 1) p

/-- Goes on to the next line, with at most `ceiling` small steps. -/
def stepToNextLine (p : Player) (ceiling : Nat) : Player × Except RunFailure LineStep :=
  if p.trace.isNone || p.isDone then (p, .ok (.finished 0)) else walk p.currentLine? ceiling 0 p

/-- The progress as a document, while a trace is loaded. -/
def serialized? (p : Player) : Option String :=
  p.trace.map fun _ =>
    (Json.Tree.record [("position", .nat p.position), ("step_count", .nat p.stepCount)]).compact

/-- What can be seen of the player. -/
def probe (p : Player) : Probe where
  position := p.current?.map fun e => ⟨p.stepCount, e.line, e.column, e.nodeType⟩
  scopes := p.current?.elim [] Entry.scopes
  frames := p.current?.elim [] Entry.frames
  serialized := p.serialized?

end Player

end Retrace
