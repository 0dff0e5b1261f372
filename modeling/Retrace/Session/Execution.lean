import Retrace.Config.Basic
import Retrace.CallTree.Tracker
import Retrace.Counters
import Retrace.Playback.Basic
/-!
# Executions

What the steps of a session change: the player with the program, and what is gathered from it — the
history, the call tree and the counters. A step plays on to the next line, captures a snapshot and
reads calls and returns off its call stack.

The source is locked from the start of a run until the run fails or the session is reset.
-/

namespace Retrace

/-- What came of starting a run. -/
inductive StartOutcome where
  | started
  /-- There is no source to run. -/
  | emptySource
  | alreadyStarted
deriving DecidableEq, Repr

/-- A program being played, and what was gathered from it. -/
structure Execution where
  player : Player
  history : History
  tracker : Tracker
  baseline : Baseline
  counters : Counters
  source : String
  /-- Whether the source is locked. -/
  readOnly : Bool
  /-- Whether a run was started since the last reset. -/
  started : Bool
  /-- The most small steps in one step. -/
  maxMicroSteps : Nat

namespace Execution

/-- An execution with no source. -/
def new (c : Config) : Execution where
  player := .idle c.player
  history := .empty c.history
  tracker := .empty
  baseline := .none
  counters := .zero
  source := ""
  readOnly := false
  started := false
  maxMicroSteps := c.maxMicroSteps

/-- Forgets the run but for its source. -/
def reset (x : Execution) : Execution :=
  { x with
    player := x.player.reset
    history := x.history.clear
    tracker := .empty
    baseline := .none
    counters := .zero
    readOnly := false
    started := false }

/-- Changes the source, unless it is locked. -/
def setSource (x : Execution) (text : String) : Except SessionFailure Execution :=
  if x.readOnly then .error .sourceLocked else .ok { x with source := text }

/-- What is said to someone who starts a run without a source. -/
def emptySourceWarning : String := "Please enter some code"

/-- Loads the source for a run, unless one was started. The second part is what observers are
told. -/
def start (x : Execution) : Execution × List Event × Except SessionFailure StartOutcome :=
  if x.started then (x, [], .ok .alreadyStarted)
  else if isBlankText x.source then (x, [.warning emptySourceWarning], .ok .emptySource)
  else
    let x := { x with counters := .start }
    match x.player.load x.source with
    | (player, .ok ()) => ({ x with player := player, readOnly := true, started := true }, [], .ok .started)
    | (player, .error e) =>
      let e := SessionFailure.load e.message
      ({ x with player := player, readOnly := false }, [.failed e], .error e)

/-- Takes notice of a captured snapshot: its depth, and the call or return it shows. -/
def observe (x : Execution) (s : Snapshot) : Execution × List Event :=
  let counters := x.counters.observeDepth s.depth
  let (baseline, transition) := x.baseline.observe s
  let counters := if transition.isEntered then counters.countCall else counters
  let x := { x with counters := counters, baseline := baseline }
  match transition.event? with
  | some c => ({ x with tracker := x.tracker.follow c }, [.snapshot s, .call c])
  | none => (x, [.snapshot s])

/-- Captures what the player shows and takes notice of it. -/
def capture (x : Execution) : Execution × List Event :=
  let (history, limit, captured) := x.history.capture (some x.player.probe)
  let x := { x with history := history }
  let announced := limit.toList.map Event.historyLimit
  match captured with
  | none => (x, announced)
  | some s =>
    let (x, events) := x.observe s
    (x, announced ++ events)

/-- Takes one step. -/
def step (x : Execution) : Execution × List Event × StepOutcome :=
  if !x.started || x.player.isDone then ({ x with counters := x.counters.finish }, [], .finished)
  else
    let counters := x.counters.countStep
    match x.player.stepToNextLine x.maxMicroSteps with
    | (player, .error e) =>
      ({ x with player := player, readOnly := false, counters := counters.finish }, [],
        .failed (.ofRun e))
    | (player, .ok line) =>
      let counters := if line.hasMore then counters else counters.finish
      let (x, events) := { x with player := player, counters := counters }.capture
      (x, events, if line.hasMore then .more else .finished)

/-- The steps of an execution as work for playback; they take no time. -/
def workload : Workload Execution := fun _ x =>
  let (x, events, outcome) := x.step
  ⟨x, events, outcome, 0⟩

end Execution

end Retrace
