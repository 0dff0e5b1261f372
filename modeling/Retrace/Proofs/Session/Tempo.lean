import Retrace.Config.File
import Retrace.Proofs.Config.RoundTrip
import Retrace.Proofs.Playback.Tempo
import Retrace.Proofs.Session.Captures
import Retrace.Proofs.Session.Configured
/-!
# The delays of a session

A configuration that was read has the ends of its delay in order, and no setter reaches them
(`Config.Obtained.inOrder`). So a session is made of it unless a setter left one of its counts at zero
(`Config.Lacks`).

The session clamps the speed when it is set, and again whenever the delay is asked for. `Tempo.run?` makes
the same clamps between the ends as they are configured, where each of them might fail. None does, and a
session keeps to the tempo that is reached in this way (`Session.run?_tempo`). What that says of its
delays is `Session.KeepsTempo`.
-/

namespace Retrace

/-! ## Configurations that one comes by -/

namespace Config

/-- The configurations that one comes by: the standard one, what is read from a text or a file, and
either with some settings replaced. -/
inductive Obtained : Config → Prop where
  | standard : Obtained .standard
  | read {text : String} {c : Config} (h : Config.read text = .ok c) : Obtained c
  | load {file : File} {c : Config} (h : Config.load file = .ok c) : Obtained c
  | withMaxHistory {c : Config} (n : Nat) (h : Obtained c) : Obtained (c.withMaxHistory n)
  | withCheckpointInterval {c : Config} (n : Nat) (h : Obtained c) :
      Obtained (c.withCheckpointInterval n)
  | withSpeed {c : Config} (ms : Nat) (h : Obtained c) : Obtained (c.withSpeed ms)
  | withTurbo {c : Config} (on : Bool) (h : Obtained c) : Obtained (c.withTurbo on)
  | withMaxMicroSteps {c : Config} (n : Nat) (h : Obtained c) : Obtained (c.withMaxMicroSteps n)

variable {c : Config}

/-- What is loaded was read from the text of the file. -/
theorem exists_read_of_load {file : File} (h : load file = .ok c) :
    ∃ text, file.text = .ok text ∧ read text = .ok c := by
  unfold load at h
  cases htext : file.text with
  | error e =>
    rw [htext] at h
    cases h
  | ok text =>
    rw [htext] at h
    cases hread : read text with
    | error e =>
      simp only [hread] at h
      cases h
    | ok d =>
      simp only [hread] at h
      obtain rfl := Except.ok.inj h
      exact ⟨text, rfl, hread⟩

/-- Setters change the speed and the mode, but neither the ends of the delay nor the time after which a
held run looks again. -/
theorem Obtained.inOrder (h : c.Obtained) : c.playback.InOrder := by
  induction h with
  | standard => exact (valid_of_violation rfl).inOrder
  | read h => exact (valid_of_violation (of_read h).2).inOrder
  | load h =>
    obtain ⟨text, -, hread⟩ := exists_read_of_load h
    exact (valid_of_violation (of_read hread).2).inOrder
  | withMaxHistory n _ ih | withCheckpointInterval n _ ih | withMaxMicroSteps n _ ih => exact ih
  | withSpeed ms _ ih => exact ⟨ih.least_pos, ih.least_le_most, ih.poll_pos⟩
  | withTurbo on _ ih => exact ⟨ih.least_pos, ih.least_le_most, ih.poll_pos⟩

/-- The rules that a configuration breaks if it lets there be no snapshots, no captures from one
checkpoint to the next, or no small steps. -/
inductive Lacks (c : Config) : ConfigViolation → Prop where
  | history (h : c.history.maxHistory = 0) : Lacks c .noHistory
  | checkpoints (h : c.history.checkpointInterval = 0) : Lacks c .noCheckpointInterval
  | microSteps (h : c.maxMicroSteps = 0) : Lacks c .noMicroSteps

/-- With the waits of playback in order no other rule can be broken. -/
theorem lacks_of_violation (h : c.playback.InOrder) {v : ConfigViolation}
    (hv : c.violation? = some v) : c.Lacks v := by
  unfold violation? at hv
  rw [if_neg (Nat.pos_iff_ne_zero.mp h.least_pos), if_neg (Nat.not_lt.mpr h.least_le_most),
    if_neg (Nat.pos_iff_ne_zero.mp h.poll_pos)] at hv
  split at hv
  next hnone =>
    obtain rfl := Option.some.inj hv
    exact .history hnone
  next =>
    split at hv
    next hnone =>
      obtain rfl := Option.some.inj hv
      exact .checkpoints hnone
    next =>
      split at hv
      next hnone =>
        obtain rfl := Option.some.inj hv
        exact .microSteps hnone
      next => cases hv

end Config

/-! ## The tempo of a session -/

namespace Tempo

/-- The tempo after an operation on a session. The speed is clamped when it is set, and a loop that moves
asks for the delay. -/
def perform? (t : Tempo) : Session.Operation → Option Tempo
  | .setSpeed ms => t.setSpeed? ms
  | .setTurbo on => some (t.setTurbo on)
  | .move _ => t.delay?.map fun _ => t
  | .setSource _ | .start | .toggle | .forward | .back | .reset | .pause | .drain | .attend
  | .elapseTo _ => some t

/-- The tempo after several operations. -/
def run? (t : Tempo) (ops : List Session.Operation) : Option Tempo := ops.foldlM perform? t

end Tempo

namespace Session

variable {c : Config} {s : Session}

theorem tempo_setSource (s : Session) (text : String) :
    (s.setSource text).1.playback.tempo = s.playback.tempo := by
  rcases s.setSource_fst text with hlocked | hchanged
  · rw [hlocked]
  · rw [hchanged]
    rfl

theorem tempo_start (s : Session) : s.start.1.playback.tempo = s.playback.tempo := by
  rcases s.start_playback with hloaded | hplayed
  · rw [hloaded]
    rfl
  · rw [hplayed]
    exact s.load.1.playback.inTempo_play.tempo

theorem tempo_toggle (s : Session) : s.toggle.1.playback.tempo = s.playback.tempo := by
  rcases s.toggle_playback with htoggled | hstarted
  · rw [htoggled]
    exact s.playback.inTempo_toggle.tempo
  · rw [hstarted]
    exact s.tempo_start

theorem tempo_stepProgram (s : Session) : s.stepProgram.1.playback.tempo = s.playback.tempo :=
  s.playback.tempo_stepForward _

theorem tempo_forward (s : Session) : s.forward.1.playback.tempo = s.playback.tempo := by
  rcases s.forward_playback with ⟨work, log, hframe⟩ | hstepped | hbegun
  · rw [hframe]
    rfl
  · rw [hstepped]
    exact s.tempo_stepProgram
  · rw [hbegun]
    exact tempo_stepProgram ⟨s.load.1.playback.pause⟩

theorem tempo_back (s : Session) : s.back.1.playback.tempo = s.playback.tempo := by
  unfold Session.back
  split
  · rfl
  · exact (Playback.inTempo_resumeFromCompleted _).tempo

/-- No clamp of an operation fails, and the tempo is the one that it gives. -/
theorem perform?_tempo (s : Session) (op : Operation) :
    s.playback.tempo.perform? op = some (s.perform op).playback.tempo := by
  cases op with
  | setSource text => exact congrArg some (s.tempo_setSource text).symm
  | start => exact congrArg some s.tempo_start.symm
  | toggle => exact congrArg some s.tempo_toggle.symm
  | forward => exact congrArg some s.tempo_forward.symm
  | back => exact congrArg some s.tempo_back.symm
  | setSpeed ms => exact s.playback.setSpeed?_tempo ms
  | move m =>
    show s.playback.tempo.delay?.map _ = _
    rw [s.playback.delay?_tempo]
    exact congrArg some (s.playback.tempo_move m).symm
  | reset | pause | setTurbo | drain | attend | elapseTo => rfl

/-- Nor does one in a whole run. -/
theorem run?_tempo (s : Session) (ops : List Operation) :
    s.playback.tempo.run? ops = some (s.run ops).playback.tempo := by
  induction ops generalizing s with
  | nil => rfl
  | cons op ops ih =>
    show (s.playback.tempo.perform? op).bind (·.run? ops) = _
    rw [s.perform?_tempo op]
    exact ih (s.perform op)

/-! ## The delays -/

/-- What a session shows of its delays, with the ends that were configured. -/
structure KeepsTempo (c : PlaybackConfig) (s : Session) : Prop where
  /-- Any speed that is set is clamped between the ends. -/
  sets : ∀ ms, clamp? c.minDelayMs c.maxDelayMs ms = some (s.setSpeed ms).2
  /-- The delay is then the one that the configuration gives for that speed, in either mode. -/
  gives : ∀ ms on, (c.tempo ms on).delay? = some ((s.setSpeed ms).1.setTurbo on).playback.delay
  /-- The delay that is asked for now. -/
  asks : s.playback.tempo.delay? = some s.playback.delay
  speed_within :
    c.minDelayMs ≤ s.playback.status.speedMs ∧ s.playback.status.speedMs ≤ c.maxDelayMs
  delay_within : c.minDelayMs ≤ s.playback.delay ∧ s.playback.delay ≤ c.maxDelayMs
  turbo_le : (s.setTurbo true).playback.delay ≤ (s.setTurbo false).playback.delay
  half_le : (s.setTurbo false).playback.delay / 2 ≤ (s.setTurbo true).playback.delay
  /-- In either mode the delay grows with the speed that was asked for. -/
  mono : ∀ on, Monotone fun ms => ((s.setSpeed ms).1.setTurbo on).playback.delay
  /-- A loop that is put to sleep sleeps for the delay, or until it looks again if it is held up. -/
  sleeps : ∀ m, ∀ z ∈ (s.perform (.move m)).playback.sleeping,
    z ∈ s.playback.sleeping ∨ z.alarm = s.playback.clock + s.playback.delay ∨
      (s.playback.status.isHeld = true ∧ z.alarm = s.playback.clock + c.pausePollMs)

theorem new?_of_violation {v : ConfigViolation} (h : c.violation? = some v) :
    new? c = .error (.config v.message) := by
  unfold new?
  split
  next v' hv =>
    obtain rfl := Option.some.inj (h.symm.trans hv)
    rfl
  next hvalid => exact nomatch h.symm.trans hvalid

theorem exists_new?_of_valid (h : c.violation? = none) : ∃ s, new? c = .ok s := by
  unfold new?
  split
  next v hv => exact nomatch h.symm.trans hv
  next => exact ⟨_, rfl⟩

theorem Configured.keepsTempo {b : DelayBounds} (h : Configured c b s)
    (hbounds : c.playback.bounds? = some b) : KeepsTempo c.playback s := by
  obtain ⟨hleast, hmost⟩ := PlaybackConfig.ends_of_bounds? hbounds
  obtain rfl := h.bounds_eq
  -- the speed is clamped when it is set, so clamping it again for the delay changes nothing
  have hclamped (ms : Nat) (on : Bool) : ((s.setSpeed ms).1.setTurbo on).playback.delay
      = s.playback.bounds.delay ms on := by
    show s.playback.bounds.delay (s.playback.bounds.clamp ms) on = _
    unfold DelayBounds.delay
    rw [DelayBounds.clamp_clamp]
  refine
    { sets := fun ms => ?_
      gives := fun ms on => ?_
      asks := s.playback.delay?_tempo
      speed_within := ?_
      delay_within := ?_
      turbo_le := s.playback.bounds.delay_turbo_le _
      half_le := s.playback.bounds.half_le_delay_turbo _
      mono := fun on => ?_
      sleeps := fun m z hz => ?_ }
  · rw [PlaybackConfig.clamp?_eq_map, hbounds]
    rfl
  · rw [PlaybackConfig.delay?_tempo hbounds, hclamped]
  · rw [← hleast, ← hmost, ← h.speed_eq]
    exact ⟨s.playback.bounds.least_le_clamp _, s.playback.bounds.clamp_le_most _⟩
  · rw [← hleast, ← hmost]
    exact ⟨s.playback.bounds.least_le_delay _ _, s.playback.bounds.delay_le_most _ _⟩
  · simp only [hclamped]
    exact s.playback.bounds.delay_mono on
  · rw [← h.poll_eq]
    exact s.playback.alarm_move m hz

/-- A session is made of a configuration that one comes by, unless a setter left one of its counts at
zero, and then the failure says which. Whatever is done to the session and whatever its loops do, in any
order, no clamp between the ends as they are configured fails, and the session keeps to the tempo that
they give. Its speed and its delay stay between these ends, turbo mode takes no longer than the other and
at least half as long, and in either mode the delay grows with the speed that is asked for. -/
theorem delays_within_bounds (h : c.Obtained) :
    (∃ v, c.Lacks v ∧ new? c = .error (.config v.message)) ∨
    ∃ s, new? c = .ok s ∧ ∀ ops : List Operation,
      (Tempo.ofConfig? c.playback).bind (·.run? ops) = some (s.run ops).playback.tempo ∧
      KeepsTempo c.playback (s.run ops) := by
  cases hvalid : c.violation? with
  | some v => exact Or.inl ⟨v, Config.lacks_of_violation h.inOrder hvalid, new?_of_violation hvalid⟩
  | none =>
    obtain ⟨s, hnew⟩ := exists_new?_of_valid hvalid
    obtain ⟨b, hbounds, rfl⟩ := bounds?_of_new? hnew
    refine Or.inr ⟨_, hnew, fun ops => ⟨?_, ?_⟩⟩
    · rw [Playback.ofConfig?_tempo hbounds (Execution.new c)]
      exact run?_tempo _ ops
    · exact ((configured_new c b).run ops).keepsTempo hbounds

/-- The delays lie between 100 and 150 milliseconds in a configuration that is read, and then the greatest
speed of 64 bits and turbo mode are set. A loop that takes its first step at the least speed sleeps for
100 milliseconds. -/
theorem delays_of_narrow_bounds :
    let text := "[playback]\nmin_delay_ms = 100\nmax_delay_ms = 150\n"
    let ops : List Operation :=
      [.setSource Trace.threeLinesText, .start, .setSpeed 0, .move (.begin 1)]
    ∃ base c s, Config.read text = .ok base ∧ c = (base.withSpeed (2 ^ 64 - 1)).withTurbo true ∧
      new? c = .ok s ∧ s.playback.status.speedMs = 150 ∧ s.playback.delay = 100 ∧
      (Tempo.ofConfig? c.playback).bind (·.run? ops) = some ⟨100, 150, 100, true⟩ ∧
      (s.run ops).playback.sleeping = [⟨1, 100⟩] ∧ ∀ later, KeepsTempo c.playback (s.run later) := by
  intro text ops
  let base : Config := { Config.standard with
    playback := { PlaybackConfig.standard with minDelayMs := 100, maxDelayMs := 150 } }
  let c := (base.withSpeed (2 ^ 64 - 1)).withTurbo true
  have hread : Config.read text = .ok base := by decide +kernel
  have hobtained : c.Obtained := .withTurbo true (.withSpeed _ (.read hread))
  rcases delays_within_bounds hobtained with ⟨v, hlacks, -⟩ | ⟨s, hnew, hruns⟩
  · cases hlacks with
    | history h | checkpoints h | microSteps h => exact absurd h (by decide)
  · have hmade : new? c = .ok ⟨.new c.playback ⟨100, 150, by decide⟩ (.new c)⟩ := rfl
    obtain rfl := Except.ok.inj (hnew.symm.trans hmade)
    refine ⟨base, c, _, hread, rfl, hnew, by decide +kernel, by decide +kernel, ?_,
      by decide +kernel, fun later => (hruns later).2⟩
    exact (hruns ops).1.trans (by decide +kernel)

end Session

end Retrace
