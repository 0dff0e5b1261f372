import Retrace.Json.Decode
/-!
# The status of playback

What is told of playback: the state last entered, the three flags, the steps counted and the delay
between them.
-/

namespace Retrace

open Json (Tree Decoder)

/-- The states that playback enters. -/
inductive PlaybackState where
  /-- Nothing has happened yet. -/
  | idle
  | playing
  | paused
  /-- There was no more to do. -/
  | completed
  | stopped
  /-- The counters were cleared. -/
  | reset
deriving DecidableEq, Repr

namespace PlaybackState

def name : PlaybackState → String
  | idle => "idle"
  | playing => "playing"
  | paused => "paused"
  | completed => "completed"
  | stopped => "stopped"
  | reset => "reset"

def all : List PlaybackState := [idle, playing, paused, completed, stopped, reset]

def decoder : Decoder PlaybackState := Decoder.word (all.map fun s => (s.name, s))

end PlaybackState

/-- The status of playback. -/
structure Status where
  /-- The state last entered. -/
  state : PlaybackState
  /-- Whether a run is under way. -/
  playing : Bool
  /-- Whether the run is held up. -/
  paused : Bool
  /-- Whether a step found no more to do. -/
  completed : Bool
  /-- The steps since the last reset that left more to do. -/
  currentStep : Nat
  /-- The most steps counted since the last reset. -/
  totalSteps : Nat
  /-- The delay between two steps. -/
  speedMs : Nat
deriving DecidableEq, Repr

namespace Status

/-- The status at first, with the given delay. -/
def initial (speedMs : Nat) : Status := ⟨.idle, false, false, false, 0, 0, speedMs⟩

/-- Whether a run is under way and not held up. -/
def isRunning (s : Status) : Bool := s.playing && !s.paused && !s.completed

def isHeld (s : Status) : Bool := s.playing && s.paused

/-- Counts a step that left more to do. -/
def countStep (s : Status) : Status :=
  { s with currentStep := s.currentStep + 1, totalSteps := max s.totalSteps (s.currentStep + 1) }

end Status

end Retrace
