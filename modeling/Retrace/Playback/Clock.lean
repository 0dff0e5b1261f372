import Retrace.Playback.Loop
/-!
# Playback in time

Which move comes next, and when. A loop that has not begun, one whose turn it is at the gate and one
whose run was cancelled move at once; a step under way and a loop asleep move when the clock shows
their time. While some move is due the clock stands still (`due?`), and then it goes to the next alarm
(`nextAlarm?`).

`advance` makes these moves until a condition holds or a deadline has come.
-/

namespace Retrace

/-- A move that playback makes of itself. -/
inductive Move where
  | begin (run : Nat)
  | wake (s : Sleeper)
  | proceed
  | land
deriving DecidableEq, Repr

namespace Playback

variable {σ : Type}

def move (w : Workload σ) (p : Playback σ) : Move → Playback σ
  | .begin run => p.begin w run
  | .wake s => p.wake w s
  | .proceed => p.proceed w
  | .land => p.land

/-- The move due at the gate. -/
def gateDue? (p : Playback σ) : Option Move :=
  match p.gate with
  | .free => none
  | .granted _ _ => some .proceed
  | .stepping _ _ finish _ => if finish ≤ p.clock then some .land else none

/-- Whether a loop wakes now: its time has come, or its run is cancelled. -/
def wakes (p : Playback σ) (s : Sleeper) : Bool := !p.isLive s.run || s.alarm ≤ p.clock

/-- The move to make while the clock stands still, if one is due. -/
def due? (p : Playback σ) : Option Move :=
  p.gateDue? <|> p.fresh.head?.map .begin <|> (p.sleeping.find? p.wakes).map .wake

/-- The time at which the next move will be due, if none is due now. -/
def nextAlarm? (p : Playback σ) : Option Nat :=
  let alarms := p.sleeping.map Sleeper.alarm
  match p.gate with
  | .stepping _ _ finish _ => (finish :: alarms).min?
  | _ => alarms.min?

/-- Lets the clock go on to a time. -/
def elapseTo (p : Playback σ) (time : Nat) : Playback σ := { p with clock := max p.clock time }

/-- What to do next: a move now, or nothing before some time, or nothing at all. -/
inductive Next where
  | now (m : Move)
  | at (time : Nat)
  | never
deriving DecidableEq, Repr

/-- What playback does next. -/
def next (p : Playback σ) : Next :=
  match p.due? with
  | some m => .now m
  | none => p.nextAlarm?.elim .never .at

/-- Makes at most `fuel` moves, and stops once a condition holds or the deadline has come. Alarms at
the deadline itself are left alone. -/
def advance (w : Workload σ) (holds : Playback σ → Bool) (deadline : Option Nat) :
    (fuel : Nat) → Playback σ → Playback σ
  | 0, p => p
  | fuel + 1, p =>
    if holds p then p
    else
      match p.next with
      | .now m => advance w holds deadline fuel (p.move w m)
      | .at time =>
        if deadline.all (time < ·) then advance w holds deadline fuel (p.elapseTo time)
        else deadline.elim p p.elapseTo
      | .never => deadline.elim p p.elapseTo

def elapse (w : Workload σ) (fuel : Nat) (p : Playback σ) (ms : Nat) : Playback σ :=
  p.advance w (fun _ => false) (some (p.clock + ms)) fuel

/-- Takes a step by hand and waits until it is over. The second part is what came of it, nothing if it
took more than `fuel` moves. -/
def stepForward (w : Workload σ) (fuel : Nat) (p : Playback σ) :
    Playback σ × Option (Except SessionFailure Bool) :=
  let (p, ticket) := p.requestStep w
  let p := p.advance w (fun p => (p.answer? ticket).isSome) none fuel
  (p.forget ticket, p.answer? ticket)

/-- Waits until the latest loop has ended, at most for some time, and tells whether it has. A loop can
be waited for once. -/
def await (w : Workload σ) (fuel : Nat) (p : Playback σ) (limitMs : Option Nat) :
    Playback σ × Bool :=
  match p.awaitable with
  | none => (p, true)
  | some run =>
    let p := { p with awaitable := none }
    let p := p.advance w (fun p => !p.hasLoop run) (limitMs.map (p.clock + ·)) fuel
    (p, !p.hasLoop run)

end Playback

end Retrace
