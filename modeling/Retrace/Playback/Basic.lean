import Retrace.Config.Basic
import Retrace.Event
/-!
# Playback

Playback takes the steps of some work one after the other, with a delay between them. The work is a
state of any type and a function that takes one step of it (`Workload`).

Each `play` starts a run with a loop of its own, and cancels the run before it. A loop that belongs to
a cancelled run takes no further step, but it may linger: asleep, or waiting for its turn. Steps are
also taken by hand. Whoever takes a step holds the gate while it lasts, and the others wait in line.

Every loop is at one place at a time: not yet begun (`fresh`), asleep (`sleeping`), or at the gate. What
each of them does between two waits is one move of `Playback/Loop`; the controls below are moves of
their own.
-/

namespace Retrace

/-- What came of a step. -/
inductive StepOutcome where
  | more
  | finished
  | failed (e : SessionFailure)
deriving DecidableEq, Repr

/-- A step of some work: the work after it, what observers are told of it, what came of it and how
long it takes. -/
structure Attempt (σ : Type) where
  work : σ
  events : List Event
  outcome : StepOutcome
  durationMs : Nat

/-- How to take a step, given the number of steps counted so far. -/
abbrev Workload (σ : Type) := Nat → σ → Attempt σ

/-- Who takes a step. -/
inductive Stepper where
  /-- The loop of a run. -/
  | loop (run : Nat)
  /-- A step by hand, identified by its ticket. -/
  | hand (ticket : Nat)
deriving DecidableEq, Repr

/-- The gate that lets one step at a time pass, and those waiting for it, first come first. -/
inductive Gate where
  | free
  /-- It is `holder`'s turn, who has not noticed yet. -/
  | granted (holder : Stepper) (waiting : List Stepper)
  /-- A step of `holder` lasts until the clock shows `finish`. -/
  | stepping (holder : Stepper) (outcome : StepOutcome) (finish : Nat) (waiting : List Stepper)
deriving DecidableEq, Repr

namespace Gate

/-- The gate given up by its holder. -/
def released : List Stepper → Gate
  | [] => free
  | next :: waiting => granted next waiting

/-- Everyone at the gate. -/
def steppers : Gate → List Stepper
  | free => []
  | granted holder waiting => holder :: waiting
  | stepping holder _ _ waiting => holder :: waiting

end Gate

/-- A loop asleep, until the clock shows `alarm`. -/
structure Sleeper where
  run : Nat
  alarm : Nat
deriving DecidableEq, Repr

/-- The playback of some work. -/
structure Playback (σ : Type) where
  bounds : DelayBounds
  /-- How long a held run sleeps before it looks again. -/
  pausePollMs : Nat
  status : Status
  turbo : Bool
  /-- The number of the latest run. -/
  run : Nat
  /-- Whether the latest run is cancelled; those before it are. -/
  cancelled : Bool
  /-- The runs whose loops have not begun, in the order they were started. -/
  fresh : List Nat
  sleeping : List Sleeper
  gate : Gate
  /-- The number of tickets for steps by hand. -/
  tickets : Nat
  /-- What came of steps by hand, as far as nobody took notice. -/
  answers : List (Nat × Except SessionFailure Bool)
  /-- The run that can be waited for. -/
  awaitable : Option Nat
  /-- The time in milliseconds. -/
  clock : Nat
  work : σ
  /-- What observers were told, as far as nobody took notice. -/
  log : Array Event

namespace Playback

variable {σ : Type}

/-- Playback of some work with nothing done yet. -/
def new (c : PlaybackConfig) (bounds : DelayBounds) (work : σ) : Playback σ where
  bounds := bounds
  pausePollMs := c.pausePollMs
  status := .initial (bounds.clamp c.speedMs)
  turbo := c.turbo
  run := 0
  cancelled := false
  fresh := []
  sleeping := []
  gate := .free
  tickets := 0
  answers := []
  awaitable := none
  clock := 0
  work := work
  log := #[]

/-- Whether a run is not cancelled. -/
def isLive (p : Playback σ) (run : Nat) : Bool := run == p.run && !p.cancelled

/-- The delay before the next step of a loop. -/
def delay (p : Playback σ) : Nat := p.bounds.delay p.status.speedMs p.turbo

/-- Tells observers something. -/
def notify (p : Playback σ) (e : Event) : Playback σ := { p with log := p.log.push e }

/-- Enters a state and tells observers. -/
def enterState (p : Playback σ) (s : PlaybackState) : Playback σ :=
  let status := { p.status with state := s }
  { p with status := status }.notify (.status status)

/-- Starts a run, whatever run was under way before. A completed playback stays as it is.

Every run has a token by which it is cancelled, and a new run first cancels the one before it. Here
counting on does so: `cancelled` is the token of the latest run alone, and a run of a smaller number
is never live again (`isLive`). So at most one run is live at any time. -/
def play (p : Playback σ) : Playback σ × Bool :=
  if p.status.completed then (p, false)
  else
    let p := { p with
      run := p.run + 1
      cancelled := false
      status := { p.status with playing := true, paused := false } }
    let p := p.enterState .playing
    ({ p with fresh := p.fresh ++ [p.run], awaitable := some p.run }, true)

/-- Holds the run up before its next step. -/
def pause (p : Playback σ) : Playback σ :=
  { p with status := { p.status with paused := true } }.enterState .paused

/-- Cancels the run and tells nobody. -/
def cancel (p : Playback σ) : Playback σ := { p with cancelled := true }

/-- Cancels the run. -/
def stop (p : Playback σ) : Playback σ :=
  { p with
    cancelled := true
    status := { p.status with playing := false, paused := false } }.enterState .stopped

/-- Stops, and then clears the counters and the completion. -/
def reset (p : Playback σ) : Playback σ :=
  let p := p.stop
  { p with
    status := { p.status with currentStep := 0, totalSteps := 0, completed := false } }.enterState .reset

/-- Notes that there is no more to do, unless that is known. -/
def complete (p : Playback σ) : Playback σ :=
  if p.status.completed then p
  else
    let p := { p with
      status := { p.status with playing := false, paused := false, completed := true } }
    (p.enterState .completed).notify .completed

/-- Tells observers of a failure and stops. -/
def fail (p : Playback σ) (e : SessionFailure) : Playback σ := (p.notify (.failed e)).stop

/-- Starts over if completed, holds the run up if it is running, and starts a run otherwise. -/
def toggle (p : Playback σ) : Playback σ :=
  if p.status.completed then p.reset.play.1
  else if p.status.playing && !p.status.paused then p.pause
  else p.play.1

/-- Takes a completion back and holds up. -/
def resumeFromCompleted (p : Playback σ) : Playback σ × Bool :=
  if p.status.completed then
    ({ p with status := { p.status with completed := false, paused := true } }.enterState .paused, true)
  else (p, false)

/-- Sets the delay between two steps, as near to the one asked for as the bounds let. -/
def setSpeed (p : Playback σ) (ms : Nat) : Playback σ × Nat :=
  let speed := p.bounds.clamp ms
  ({ p with status := { p.status with speedMs := speed } }, speed)

def setTurbo (p : Playback σ) (on : Bool) : Playback σ := { p with turbo := on }

/-- Takes notice of what observers were told. -/
def drain (p : Playback σ) : Playback σ × Array Event := ({ p with log := #[] }, p.log)

end Playback

end Retrace
