import Retrace.History
import Retrace.Trace.Player
/-!
# Configuration

What a session can be told in advance: the bounds of its history, the pace of playback, how much one
step may do, and the limits of the player. `Config.violation?` names the first rule a configuration
breaks, in a fixed order.

The two ends of the delay between steps make sense only in their order. `DelayBounds` holds a pair in
order, so clamping needs no further check; `PlaybackConfig.bounds?` is the only way from one to the
other.
-/

namespace Retrace

/-- The pace of playback. -/
structure PlaybackConfig where
  /-- The delay between two steps. -/
  speedMs : Nat
  /-- The least delay. -/
  minDelayMs : Nat
  /-- The greatest delay. -/
  maxDelayMs : Nat
  /-- How often a paused run looks whether it may go on. -/
  pausePollMs : Nat
  /-- Whether delays are halved. -/
  turbo : Bool
deriving DecidableEq, Repr

/-- The configuration of a session. -/
structure Config where
  history : HistoryConfig
  playback : PlaybackConfig
  /-- The most small steps in one step. -/
  maxMicroSteps : Nat
  player : PlayerLimits
deriving DecidableEq, Repr

/-- The history retained unless something else is asked for. -/
def HistoryConfig.standard : HistoryConfig := ⟨10000, 50⟩

/-- Two steps a second. -/
def PlaybackConfig.standard : PlaybackConfig := ⟨500, 10, 2000, 50, false⟩

/-- The limits of a player unless others are asked for. -/
def PlayerLimits.standard : PlayerLimits := ⟨100000, 10000⟩

/-- Delays in order: a least and a greatest one. -/
structure DelayBounds where
  least : Nat
  most : Nat
  least_le_most : least ≤ most

namespace DelayBounds

/-- The delay within the bounds that is nearest to the one asked for. -/
def clamp (b : DelayBounds) (ms : Nat) : Nat := min (max ms b.least) b.most

/-- The delay between two steps: clamped, and in turbo mode halved as far as the lower bound lets. -/
def delay (b : DelayBounds) (ms : Nat) (turbo : Bool) : Nat :=
  if turbo then max (b.clamp ms / 2) b.least else b.clamp ms

theorem least_le_clamp (b : DelayBounds) (ms : Nat) : b.least ≤ b.clamp ms := by
  have := b.least_le_most
  simp only [clamp]
  omega

theorem clamp_le_most (b : DelayBounds) (ms : Nat) : b.clamp ms ≤ b.most := by
  simp only [clamp]
  omega

end DelayBounds

/-- The bounds of the delay, if they are in order. -/
def PlaybackConfig.bounds? (c : PlaybackConfig) : Option DelayBounds :=
  if h : c.minDelayMs ≤ c.maxDelayMs then some ⟨c.minDelayMs, c.maxDelayMs, h⟩ else none

/-- A rule that a configuration breaks. -/
inductive ConfigViolation where
  | noHistory
  | noCheckpointInterval
  | noMinDelay
  | delaysReversed (least most : Nat)
  | noPausePoll
  | noMicroSteps
deriving DecidableEq, Repr

/-- What is said of a field that has to be positive. -/
def ConfigViolation.atLeastOne (field : String) : String := field ++ " must be at least 1"

def ConfigViolation.message : ConfigViolation → String
  | noHistory => atLeastOne "history.max_history"
  | noCheckpointInterval => atLeastOne "history.checkpoint_interval"
  | noMinDelay => atLeastOne "playback.min_delay_ms"
  | delaysReversed least most =>
    "playback.min_delay_ms (" ++ decimalText least ++ ") exceeds playback.max_delay_ms ("
      ++ decimalText most ++ ")"
  | noPausePoll => atLeastOne "playback.pause_poll_ms"
  | noMicroSteps => atLeastOne "execution.max_micro_steps"

namespace Config

/-- The configuration that says nothing. -/
def standard : Config := ⟨.standard, .standard, 100, .standard⟩

/-- The first rule that a configuration breaks. -/
def violation? (c : Config) : Option ConfigViolation :=
  if c.history.maxHistory = 0 then some .noHistory
  else if c.history.checkpointInterval = 0 then some .noCheckpointInterval
  else if c.playback.minDelayMs = 0 then some .noMinDelay
  else if c.playback.maxDelayMs < c.playback.minDelayMs then
    some (.delaysReversed c.playback.minDelayMs c.playback.maxDelayMs)
  else if c.playback.pausePollMs = 0 then some .noPausePoll
  else if c.maxMicroSteps = 0 then some .noMicroSteps
  else none

def withMaxHistory (c : Config) (n : Nat) : Config :=
  { c with history := { c.history with maxHistory := n } }

/-- Sets the captures from one checkpoint to the next. -/
def withCheckpointInterval (c : Config) (n : Nat) : Config :=
  { c with history := { c.history with checkpointInterval := n } }

def withSpeed (c : Config) (ms : Nat) : Config :=
  { c with playback := { c.playback with speedMs := ms } }

def withTurbo (c : Config) (on : Bool) : Config :=
  { c with playback := { c.playback with turbo := on } }

/-- Sets the most small steps in one step. -/
def withMaxMicroSteps (c : Config) (n : Nat) : Config := { c with maxMicroSteps := n }

end Config

end Retrace
