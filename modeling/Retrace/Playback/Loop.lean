import Retrace.Playback.Basic
/-!
# The moves of playback

What the loops and the steps by hand do between two waits. A loop takes a step only if its run is not
cancelled and is running, and it looks again once it has the gate, because much may have happened
while it stood in line. A step by hand is taken whatever happened meanwhile.

A step that takes no time is over within the move that began it. A step that takes time is over by the
move `land`; what came of it is dropped if the loop's run was cancelled in between, and counts in any
case.
-/

namespace Retrace

namespace Playback

variable {σ : Type}

/-- Lets a loop sleep. -/
def sleep (p : Playback σ) (run ms : Nat) : Playback σ :=
  { p with sleeping := p.sleeping ++ [⟨run, p.clock + ms⟩] }

/-- Notes what came of a step by hand. -/
def answer (p : Playback σ) (ticket : Nat) (r : Except SessionFailure Bool) : Playback σ :=
  { p with answers := p.answers ++ [(ticket, r)] }

/-- What the loop of a run does after a step of its own. -/
def afterLoopStep (p : Playback σ) (run : Nat) (outcome : StepOutcome) : Playback σ :=
  if p.isLive run then
    match outcome with
    | .more => p.sleep run p.delay
    | .finished => p.complete
    | .failed e => p.fail e
  else p

/-- What is done after a step by hand. -/
def afterHandStep (p : Playback σ) (ticket : Nat) (outcome : StepOutcome) : Playback σ :=
  match outcome with
  | .more => p.answer ticket (.ok true)
  | .finished => p.complete.answer ticket (.ok false)
  | .failed e => (p.fail e).answer ticket (.error e)

/-- A step is over: it is counted, the gate goes to the next in line, and its taker goes on. -/
def settle (p : Playback σ) (holder : Stepper) (outcome : StepOutcome) (waiting : List Stepper) :
    Playback σ :=
  let status := if outcome = .more then p.status.countStep else p.status
  let p := { p with status := status, gate := .released waiting }
  match holder with
  | .loop run => p.afterLoopStep run outcome
  | .hand ticket => p.afterHandStep ticket outcome

/-- Takes a step while holding the gate. -/
def takeStep (w : Workload σ) (p : Playback σ) (holder : Stepper) (waiting : List Stepper) :
    Playback σ :=
  let a := w p.status.currentStep p.work
  let p := { p with work := a.work, log := p.log ++ a.events.toArray }
  if a.durationMs = 0 then p.settle holder a.outcome waiting
  else { p with gate := .stepping holder a.outcome (p.clock + a.durationMs) waiting }

/-- Asks for the gate: the step is taken at once if it is free. -/
def approach (w : Workload σ) (p : Playback σ) (s : Stepper) : Playback σ :=
  match p.gate with
  | .free => p.takeStep w s []
  | .granted holder waiting => { p with gate := .granted holder (waiting ++ [s]) }
  | .stepping holder outcome finish waiting =>
    { p with gate := .stepping holder outcome finish (waiting ++ [s]) }

/-- A loop goes on if its run is live and running, and ends otherwise. -/
def goOn (w : Workload σ) (p : Playback σ) (run : Nat) : Playback σ :=
  if p.isLive run && p.status.isRunning then p.approach w (.loop run) else p

/-- The move of a loop that has not begun. -/
def begin (w : Workload σ) (p : Playback σ) (run : Nat) : Playback σ :=
  { p with fresh := p.fresh.erase run }.goOn w run

/-- The move of a loop that was asleep. A held run goes back to sleep. -/
def wake (w : Workload σ) (p : Playback σ) (s : Sleeper) : Playback σ :=
  let p := { p with sleeping := p.sleeping.erase s }
  if p.isLive s.run && p.status.isHeld then p.sleep s.run p.pausePollMs else p.goOn w s.run

/-- The move of the one whose turn it is at the gate. -/
def proceed (w : Workload σ) (p : Playback σ) : Playback σ :=
  match p.gate with
  | .granted (.hand ticket) waiting => p.takeStep w (.hand ticket) waiting
  | .granted (.loop run) waiting =>
    if p.isLive run && p.status.isRunning then p.takeStep w (.loop run) waiting
    else
      let p := { p with gate := .released waiting }
      if p.isLive run && p.status.isHeld then p.sleep run p.pausePollMs else p
  | _ => p

/-- The step under way is over. -/
def land (p : Playback σ) : Playback σ :=
  match p.gate with
  | .stepping holder outcome _ waiting => p.settle holder outcome waiting
  | _ => p

/-- Asks for a step by hand and holds a running loop up. The second part is its ticket. -/
def requestStep (w : Workload σ) (p : Playback σ) : Playback σ × Nat :=
  let ticket := p.tickets
  let p := { p with tickets := ticket + 1 }
  if p.status.completed then (p.answer ticket (.ok false), ticket)
  else
    let p := if p.status.playing && !p.status.paused then p.pause else p
    (p.approach w (.hand ticket), ticket)

/-- What came of a step by hand, if it is over. -/
def answer? (p : Playback σ) (ticket : Nat) : Option (Except SessionFailure Bool) :=
  p.answers.lookup ticket

/-- Takes notice of what came of a step by hand. -/
def forget (p : Playback σ) (ticket : Nat) : Playback σ :=
  { p with answers := p.answers.filter (·.1 != ticket) }

/-- Whether the loop of a run has not ended. -/
def hasLoop (p : Playback σ) (run : Nat) : Bool :=
  p.fresh.contains run || p.sleeping.any (·.run == run) || p.gate.steppers.contains (.loop run)

end Playback

end Retrace
