import Retrace.Session.Execution
import Retrace.Playback.Clock
/-!
# Sessions

A session plays a recorded program and lets its user go back and forth in what was played. Going
forward first replays what lies ahead of the cursor in the history, and only at its end takes a step
of the program. Going back never touches the program.
-/

namespace Retrace

/-- A configuration without a fault has its delays in order. -/
theorem Config.minDelay_le_maxDelay {c : Config} (h : c.violation? = none) :
    c.playback.minDelayMs ≤ c.playback.maxDelayMs := by
  unfold Config.violation? at h
  by_cases hr : c.playback.maxDelayMs < c.playback.minDelayMs
  · simp only [hr, if_true] at h
    split at h
    · cases h
    · split at h
      · cases h
      · split at h <;> cases h
  · omega

/-- A session: an execution and its playback. -/
structure Session where
  playback : Playback Execution

namespace Session

/-- A session with a valid configuration. -/
def new? (c : Config) : Except SessionFailure Session :=
  match h : c.violation? with
  | some v => .error (.config v.message)
  | none =>
    let bounds : DelayBounds :=
      ⟨c.playback.minDelayMs, c.playback.maxDelayMs, Config.minDelay_le_maxDelay h⟩
    .ok ⟨.new c.playback bounds (.new c)⟩

def execution (s : Session) : Execution := s.playback.work

def withExecution (s : Session) (x : Execution) : Session := ⟨{ s.playback with work := x }⟩

/-- Tells observers something. -/
def notify (s : Session) (events : List Event) : Session :=
  ⟨{ s.playback with log := s.playback.log ++ events.toArray }⟩

def source (s : Session) : String := s.execution.source

/-- Changes the source, unless it is locked. -/
def setSource (s : Session) (text : String) : Session × Except SessionFailure Unit :=
  match s.execution.setSource text with
  | .ok x => (s.withExecution x, .ok ())
  | .error e => (s, .error e)

/-- Loads the source without playing it. -/
def load (s : Session) : Session × Except SessionFailure StartOutcome :=
  let (x, events, outcome) := s.execution.start
  ((s.withExecution x).notify events, outcome)

/-- Loads the source and plays it. -/
def start (s : Session) : Session × Except SessionFailure StartOutcome :=
  match s.load with
  | (s, .ok .started) => (⟨s.playback.play.1⟩, .ok .started)
  | (s, outcome) => (s, outcome)

/-- Starts a run if none was started, and toggles playback otherwise. -/
def toggle (s : Session) : Session × Except SessionFailure Unit :=
  if s.execution.started then (⟨s.playback.toggle⟩, .ok ())
  else
    match s.start with
    | (s, .ok _) => (s, .ok ())
    | (s, .error e) => (s, .error e)

/-- The snapshot under the cursor. -/
def current? (s : Session) : Option Snapshot := s.execution.history.current?

/-- A number of moves that is enough for some time: each loop that has not begun or is asleep moves
once, each step plays one entry at least, and each time a held loop looks again a millisecond has
passed. -/
def patience (s : Session) (ms : Nat) : Nat :=
  4 * (s.playback.fresh.length + s.playback.sleeping.length + s.execution.player.length + ms + 4)

/-- Takes a step of the program by hand. It is over at once, because nothing a session does takes
time. -/
def stepProgram (s : Session) : Session × Except SessionFailure Bool :=
  let (p, r) := s.playback.stepForward Execution.workload (s.patience 0)
  (⟨p⟩, r.getD (.ok true))

/-- Goes one step forward. A run that was not started is loaded, held up and taken one step. The
snapshot now under the cursor is given if it is another one than before. -/
def forward (s : Session) : Session × Except SessionFailure (Option Snapshot) :=
  if s.execution.started then
    if s.execution.history.canStepForward then
      let (history, replayed) := s.execution.history.stepForward
      let s := s.withExecution { s.execution with history := history }
      (s.notify (replayed.toList.map .snapshot), .ok replayed)
    else
      let captures := s.execution.history.captures
      match s.stepProgram with
      | (s, .error e) => (s, .error e)
      | (s, .ok _) =>
        (s, .ok (if s.execution.history.captures = captures then none else s.current?))
  else
    match s.load with
    | (s, .ok .started) =>
      let s : Session := ⟨s.playback.pause⟩
      match s.stepProgram with
      | (s, .error e) => (s, .error e)
      | (s, .ok _) => (s, .ok s.current?)
    | (s, .ok _) => (s, .ok none)
    | (s, .error e) => (s, .error e)

/-- Goes one snapshot back, if there is one. A completed run can then go on again. -/
def back (s : Session) : Session × Option Snapshot :=
  match s.execution.history.stepBack with
  | (_, none) => (s, none)
  | (history, some snapshot) =>
    let s := (s.withExecution { s.execution with history := history }).notify [.snapshot snapshot]
    (⟨s.playback.resumeFromCompleted.1⟩, some snapshot)

/-- Returns everything but the source, the speed and the turbo mode to the beginning. -/
def reset (s : Session) : Session :=
  let p := s.playback.reset
  ⟨{ p with work := p.work.reset }⟩

def pause (s : Session) : Session := ⟨s.playback.pause⟩

/-- Sets the delay between two steps, as near to the one asked for as the bounds let. -/
def setSpeed (s : Session) (ms : Nat) : Session × Nat :=
  let (p, speed) := s.playback.setSpeed ms
  (⟨p⟩, speed)

def setTurbo (s : Session) (on : Bool) : Session := ⟨s.playback.setTurbo on⟩

def elapse (s : Session) (ms : Nat) : Session :=
  ⟨s.playback.elapse Execution.workload (s.patience ms) ms⟩

/-- Waits until playback has ended, at most for some time, and tells whether it has. -/
def await (s : Session) (limitMs : Option Nat) : Session × Bool :=
  let (p, ended) := s.playback.await Execution.workload (s.patience (limitMs.getD 0)) limitMs
  (⟨p⟩, ended)

/-- The arrays of the snapshot under the cursor. -/
def arrays (s : Session) : List ArrayVariable := s.execution.history.arrays

/-- The tree of the first call. -/
def hierarchy? (s : Session) : Option CallTree := s.execution.tracker.hierarchy?

def forest (s : Session) : List CallTree := s.execution.tracker.forest

/-- Takes notice of what observers were told. -/
def drain (s : Session) : Session × Array Event :=
  let (p, events) := s.playback.drain
  (⟨p⟩, events)

end Session

end Retrace
