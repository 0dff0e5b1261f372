import Retrace.Session.Basic
import Retrace.Proofs.Playback.Touch
import Retrace.Proofs.Session.Playing
/-!
# Operations on a session, in any order

What can happen to a session, one thing after the other: the calls of its user, and the moves that its
loops make between them (`Operation`). The moves may come in any order, also in one that the clock
would not allow, so what holds of every `run` holds of every schedule.

A session is idle or it plays a trace. `IsIdle.perform` and `IsPlaying.perform` say what each operation
makes of the one and of the other, and what it captures (`newlyCaptured`).

Either way the gate is free (`gate_run`). The steps of an execution take no time
(`Execution.instant_workload`), so a step is over within the operation that takes it, and whoever asks
for the gate passes at once: waiting for it never suspends a session. For that reason no operation
lines up a step by hand, as `Playback.Action.lineUp` does where steps last.
-/

namespace Retrace

/-- What a valid configuration says of the waits of playback: they take some time, and the ends of the
delay are in order. -/
structure PlaybackConfig.InOrder (c : PlaybackConfig) : Prop where
  least_pos : 0 < c.minDelayMs
  least_le_most : c.minDelayMs ≤ c.maxDelayMs
  poll_pos : 0 < c.pausePollMs

/-- A configuration that breaks no rule. -/
structure Config.Valid (c : Config) : Prop where
  history_pos : 0 < c.history.maxHistory
  interval_pos : 0 < c.history.checkpointInterval
  inOrder : c.playback.InOrder
  microSteps_pos : 0 < c.maxMicroSteps

theorem Config.valid_of_violation {c : Config} (h : c.violation? = none) : c.Valid := by
  unfold violation? at h
  repeat' split at h
  all_goals cases h
  exact ⟨by omega, by omega, ⟨by omega, by omega, by omega⟩, by omega⟩

/-- The steps of an execution take no time. -/
theorem Execution.instant_workload : Execution.workload.Instant := fun _ _ => rfl

/-- A run that was started is not started again. -/
theorem Execution.start_again {x : Execution} (h : x.started = true) :
    x.start = (x, [], .ok .alreadyStarted) := if_pos h

namespace Session

/-- What can happen to a session. -/
inductive Operation where
  | setSource (text : String)
  | start
  | toggle
  | forward
  | back
  | reset
  | pause
  | setSpeed (ms : Nat)
  | setTurbo (on : Bool)
  | drain
  /-- The latest loop is being waited for. -/
  | attend
  /-- A loop, or whoever is at the gate, moves. -/
  | move (m : Move)
  /-- Time passes. -/
  | elapseTo (time : Nat)

/-- The session after an operation. -/
def perform (s : Session) : Operation → Session
  | .setSource text => (s.setSource text).1
  | .start => s.start.1
  | .toggle => s.toggle.1
  | .forward => s.forward.1
  | .back => s.back.1
  | .reset => s.reset
  | .pause => s.pause
  | .setSpeed ms => (s.setSpeed ms).1
  | .setTurbo on => s.setTurbo on
  | .drain => s.drain.1
  | .attend => ⟨{ s.playback with awaitable := none }⟩
  | .move m => ⟨s.playback.move Execution.workload m⟩
  | .elapseTo time => ⟨s.playback.elapseTo time⟩

/-- Whether an operation starts a run, if none was started. -/
def Operation.starts : Operation → Bool
  | start => true
  | toggle => true
  | forward => true
  | _ => false

/-- The session after several operations. -/
def run (s : Session) (ops : List Operation) : Session := ops.foldl perform s

/-- What was captured from one state of a session to a later one, if at most one capture lies between
them: a capture is counted, and what it captured is then under the cursor. -/
def newlyCaptured (s s' : Session) : List Snapshot :=
  if s.execution.history.captures < s'.execution.history.captures then s'.current?.toList else []

/-- A session with nothing loaded. -/
structure IsIdle (c : Config) (s : Session) : Prop where
  idle : Execution.Idle c s.execution
  free : s.playback.gate = .free
  off : s.playback.status.playing = false
  not_completed : s.playback.status.completed = false

/-- A session that plays a trace and has captured the given snapshots. -/
structure IsPlaying (c : Config) (t : Trace) (s : Session) (captured : List Snapshot) : Prop where
  playing : Execution.Playing c t s.execution captured
  free : s.playback.gate = .free
  done_of_completed : s.playback.status.completed = true → s.execution.player.isDone = true

theorem newlyCaptured_of_eq {s s' : Session}
    (h : s'.execution.history.captures = s.execution.history.captures) :
    newlyCaptured s s' = [] := by
  unfold newlyCaptured
  rw [h, if_neg (Nat.lt_irrefl _)]

theorem newlyCaptured_congr {s₁ s₂ : Session}
    (h : s₁.execution.history.captures = s₂.execution.history.captures) (s' : Session) :
    newlyCaptured s₁ s' = newlyCaptured s₂ s' := by
  unfold newlyCaptured
  rw [h]

theorem newlyCaptured_of_current {s s' : Session} {snapshot : Snapshot}
    (h : s'.execution.history.captures = s.execution.history.captures + 1)
    (hcurrent : s'.current? = some snapshot) : newlyCaptured s s' = [snapshot] := by
  unfold newlyCaptured
  rw [h, if_pos (Nat.lt_succ_self _), hcurrent]
  rfl

/-- A valid configuration allows at least one small step in a step. -/
theorem maxMicroSteps_pos {c : Config} (h : c.violation? = none) : 0 < c.maxMicroSteps :=
  (Config.valid_of_violation h).microSteps_pos

/-- It allows at least one snapshot to be retained. -/
theorem maxHistory_pos {c : Config} (h : c.violation? = none) : 0 < c.history.maxHistory :=
  (Config.valid_of_violation h).history_pos

theorem violation_of_new? {c : Config} {s : Session} (h : new? c = .ok s) : c.violation? = none := by
  unfold new? at h
  split at h
  · cases h
  · assumption

/-- A session is set up with the bounds that are configured. -/
theorem bounds?_of_new? {c : Config} {s : Session} (h : new? c = .ok s) : ∃ bounds,
    c.playback.bounds? = some bounds ∧ s = ⟨.new c.playback bounds (.new c)⟩ := by
  unfold new? at h
  split at h
  next => cases h
  next hvalid =>
    injection h with h
    exact ⟨_, dif_pos (Config.minDelay_le_maxDelay hvalid), h.symm⟩

theorem eq_of_new? {c : Config} {s : Session} (h : new? c = .ok s) :
    ∃ bounds, s = ⟨.new c.playback bounds (.new c)⟩ := by
  obtain ⟨bounds, -, hs⟩ := bounds?_of_new? h
  exact ⟨bounds, hs⟩

/-- Only of a valid configuration is a session made, and then it is idle. -/
theorem isIdle_of_new? {c : Config} {s : Session} (h : new? c = .ok s) :
    IsIdle c s ∧ 0 < c.maxMicroSteps := by
  obtain ⟨bounds, rfl⟩ := eq_of_new? h
  exact ⟨⟨Execution.idle_new c, rfl, rfl, rfl⟩, maxMicroSteps_pos (violation_of_new? h)⟩

theorem setSource_fst (s : Session) (text : String) :
    (s.setSource text).1 = s
      ∨ (s.setSource text).1 = s.withExecution { s.execution with source := text } := by
  unfold Session.setSource Execution.setSource
  by_cases hlocked : s.execution.readOnly = true
  · rw [if_pos hlocked]
    exact Or.inl rfl
  · rw [if_neg hlocked]
    exact Or.inr rfl

theorem start_again {s : Session} (h : s.execution.started = true) :
    s.start = ((s.withExecution s.execution).notify [], .ok .alreadyStarted) := by
  unfold Session.start load
  rw [Execution.start_again h]

theorem toggle_again {s : Session} (h : s.execution.started = true) :
    s.toggle = (⟨s.playback.toggle⟩, .ok ()) := if_pos h

theorem start_of_not_loaded {s : Session} (h : s.load.2 ≠ .ok .started) : s.start = s.load := by
  unfold Session.start
  split
  next s' hload => exact absurd (congrArg Prod.snd hload) h
  next s' outcome _ hload => exact hload.symm

theorem forward_of_not_loaded {s : Session} (hstarted : s.execution.started = false)
    (h : s.load.2 ≠ .ok .started) : s.forward.1 = s.load.1 := by
  unfold Session.forward
  rw [hstarted, if_neg Bool.false_ne_true]
  split
  next s' hload => exact absurd (congrArg Prod.snd hload) h
  next s' outcome _ hload => rw [hload]
  next s' e hload => rw [hload]

/-! ## A session that plays -/

section Playing

variable {c : Config} {t : Trace} {s : Session} {captured : List Snapshot}

/-- A session that has captured no more has captured nothing new. -/
theorem IsPlaying.keep {s' : Session} (h : IsPlaying c t s captured)
    (h' : IsPlaying c t s' captured) : IsPlaying c t s' (captured ++ newlyCaptured s s') := by
  have hcaptures := h'.playing.captures.trans h.playing.captures.symm
  rw [newlyCaptured_of_eq hcaptures, List.append_nil]
  exact h'

theorem IsPlaying.still (h : IsPlaying c t s captured) {p : Playback Execution}
    (hstill : s.playback.Still p) : IsPlaying c t ⟨p⟩ captured := by
  have hwork : p.work = s.execution := hstill.work_eq
  refine ⟨?_, hstill.gate_eq.trans h.free, ?_⟩
  · show Execution.Playing c t p.work captured
    rw [hwork]
    exact h.playing
  · intro hcompleted
    show p.work.player.isDone = true
    rw [hwork]
    exact h.done_of_completed (hstill.completed hcompleted)

/-- The source and the place in the history are free to change. -/
theorem IsPlaying.withExecution (h : IsPlaying c t s captured) {x : Execution}
    (hx : Execution.Playing c t x captured) (hplayer : x.player = s.execution.player) :
    IsPlaying c t (s.withExecution x) captured := by
  refine ⟨hx, h.free, ?_⟩
  intro hcompleted
  show x.player.isDone = true
  rw [hplayer]
  exact h.done_of_completed hcompleted

/-- Playback may be touched while a trace plays, and what is captured by that is the next stop. -/
theorem IsPlaying.touched (hc : 0 < c.maxMicroSteps) (h : IsPlaying c t s captured)
    {p : Playback Execution} (ht : Playback.Touched Execution.workload s.playback p) :
    IsPlaying c t ⟨p⟩ (captured ++ newlyCaptured s ⟨p⟩) := by
  cases ht with
  | still hstill => exact h.keep (h.still hstill)
  | stepped n hwork hgate hcompleted =>
    have hwork : p.work = s.execution.step.1 := hwork
    have hcompleted : p.status.completed = true →
        s.playback.status.completed = true ∨ s.execution.step.2.2 = .finished := hcompleted
    have hstep := h.playing.step hc
    generalize hx : s.execution.step.1 = x at hwork hstep
    generalize ho : s.execution.step.2.2 = outcome at hcompleted hstep
    cases hstep with
    | more snapshot hplaying hcurrent =>
      have hcaptures : p.work.history.captures = s.execution.history.captures + 1 := by
        rw [hwork, hplaying.captures, h.playing.captures, List.length_append]
        rfl
      have hshown : Session.current? ⟨p⟩ = some snapshot := by
        show p.work.history.current? = some snapshot
        rw [hwork]
        exact hcurrent
      rw [newlyCaptured_of_current hcaptures hshown]
      refine ⟨?_, hgate, ?_⟩
      · show Execution.Playing c t p.work _
        rw [hwork]
        exact hplaying
      · -- a completed session has nothing more to play, so it would not have captured anything
        intro hc
        rcases hcompleted hc with hbefore | hfinished
        · rw [Execution.step_of_isDone (h.done_of_completed hbefore)] at ho
          cases ho
        · cases hfinished
    | exhausted hplaying hdone =>
      have hcaptures : p.work.history.captures = s.execution.history.captures := by
        rw [hwork, hplaying.captures, h.playing.captures]
      rw [newlyCaptured_of_eq hcaptures, List.append_nil]
      refine ⟨?_, hgate, ?_⟩
      · show Execution.Playing c t p.work captured
        rw [hwork]
        exact hplaying
      · intro _
        show p.work.player.isDone = true
        rw [hwork]
        exact hdone

theorem IsPlaying.setSource (h : IsPlaying c t s captured) (text : String) :
    IsPlaying c t (s.setSource text).1 captured := by
  rcases s.setSource_fst text with hlocked | hchanged
  · rw [hlocked]
    exact h
  · rw [hchanged]
    exact h.withExecution (h.playing.withSource text) rfl

theorem IsPlaying.forward (hc : 0 < c.maxMicroSteps) (h : IsPlaying c t s captured) :
    IsPlaying c t s.forward.1 (captured ++ newlyCaptured s s.forward.1) := by
  unfold Session.forward
  rw [h.playing.started, if_pos rfl]
  cases hcan : s.execution.history.canStepForward with
  | true =>
    -- a replay from the history
    rw [if_pos rfl]
    refine h.keep ((h.withExecution h.playing.stepForward rfl).still ?_)
    exact ⟨rfl, rfl, id⟩
  | false =>
    -- a step by hand
    rw [if_neg Bool.false_ne_true]
    have hstep : (s.stepProgram).1
        = ⟨(s.playback.stepForward Execution.workload (s.patience 0)).1⟩ := rfl
    have htouched := h.touched hc
      (Playback.touched_stepForward Execution.instant_workload h.free (s.patience 0))
    rw [← hstep] at htouched
    generalize s.stepProgram = result at htouched ⊢
    obtain ⟨s', outcome⟩ := result
    cases outcome <;> exact htouched

theorem IsPlaying.back (h : IsPlaying c t s captured) : IsPlaying c t s.back.1 captured := by
  have hback := h.playing.stepBack
  unfold Session.back
  generalize s.execution.history.stepBack = result at hback ⊢
  obtain ⟨history, snapshot⟩ := result
  cases snapshot with
  | none => exact h
  | some snapshot =>
    have hmoved : IsPlaying c t
        ((s.withExecution { s.execution with history := history }).notify [.snapshot snapshot])
        captured :=
      (h.withExecution hback rfl).still ⟨rfl, rfl, id⟩
    exact hmoved.still (Playback.still_resumeFromCompleted _)

/-- While a trace plays nothing but a reset keeps the session from going on with it. -/
theorem IsPlaying.perform (hc : 0 < c.maxMicroSteps) (h : IsPlaying c t s captured)
    {op : Operation} (hop : op ≠ .reset) :
    IsPlaying c t (s.perform op) (captured ++ newlyCaptured s (s.perform op)) := by
  cases op with
  | setSource text => exact h.keep (h.setSource text)
  | start =>
    refine h.keep ?_
    show IsPlaying c t s.start.1 captured
    rw [start_again h.playing.started]
    exact h.still ⟨rfl, rfl, id⟩
  | toggle =>
    refine h.keep ?_
    show IsPlaying c t s.toggle.1 captured
    rw [toggle_again h.playing.started]
    exact h.still s.playback.still_toggle
  | forward => exact h.forward hc
  | back => exact h.keep h.back
  | reset => exact absurd rfl hop
  | pause => exact h.touched hc (.still s.playback.still_pause)
  | setSpeed ms => exact h.touched hc (.still ⟨rfl, rfl, id⟩)
  | setTurbo on => exact h.touched hc (.still ⟨rfl, rfl, id⟩)
  | drain => exact h.touched hc (.still ⟨rfl, rfl, id⟩)
  | attend => exact h.touched hc (.still ⟨rfl, rfl, id⟩)
  | move m => exact h.touched hc (Playback.touched_move Execution.instant_workload h.free m)
  | elapseTo time => exact h.touched hc (.still ⟨rfl, rfl, id⟩)

theorem IsPlaying.reset (h : IsPlaying c t s captured) : IsIdle c s.reset :=
  ⟨h.playing.reset, h.free, rfl, rfl⟩

end Playing

/-! ## A session that is idle -/

section Idle

variable {c : Config} {s : Session}

theorem IsIdle.retained (h : IsIdle c s) : s.execution.history.retained = #[] :=
  Array.eq_empty_of_size_eq_zero (h.idle.history.empty_of_cursor h.idle.cursor)

theorem IsIdle.still (h : IsIdle c s) {p : Playback Execution} (hstill : s.playback.Still p)
    (hoff : p.status.playing = false) : IsIdle c ⟨p⟩ := by
  have hwork : p.work = s.execution := hstill.work_eq
  refine ⟨?_, hstill.gate_eq.trans h.free, hoff, ?_⟩
  · show Execution.Idle c p.work
    rw [hwork]
    exact h.idle
  · show p.status.completed = false
    cases hcompleted : p.status.completed with
    | false => rfl
    | true => exact (hstill.completed hcompleted).symm.trans h.not_completed

theorem IsIdle.withExecution (h : IsIdle c s) {x : Execution} (hx : Execution.Idle c x) :
    IsIdle c (s.withExecution x) :=
  ⟨hx, h.free, h.off, h.not_completed⟩

theorem IsIdle.setSource (h : IsIdle c s) (text : String) : IsIdle c (s.setSource text).1 := by
  rcases s.setSource_fst text with hlocked | hchanged
  · rw [hlocked]
    exact h
  · rw [hchanged]
    exact h.withExecution (h.idle.withSource text)

theorem IsIdle.back (h : IsIdle c s) : s.back.1 = s := by
  have hcan : s.execution.history.canStepBack = false := by
    unfold History.canStepBack
    rw [h.idle.cursor]
    rfl
  unfold Session.back
  rw [History.stepBack_of_not hcan]

theorem IsIdle.reset (h : IsIdle c s) : IsIdle c s.reset :=
  ⟨h.idle.reset, h.free, rfl, rfl⟩

/-! ### Starting -/

theorem IsIdle.load_of_error (h : IsIdle c s) {e : RunFailure}
    (hread : Trace.read s.source = .error e) : IsIdle c s.load.1 ∧ s.load.2 ≠ .ok .started := by
  obtain ⟨hidle, houtcome⟩ := h.idle.start_of_error hread
  exact ⟨(h.withExecution hidle).still ⟨rfl, rfl, id⟩ h.off, houtcome⟩

theorem IsIdle.load_of_read (h : IsIdle c s) {t : Trace} (hread : Trace.read s.source = .ok t) :
    IsPlaying c t s.load.1 [] ∧ s.load.2 = .ok .started := by
  obtain ⟨hplaying, houtcome⟩ := h.idle.start_of_read hread
  have hcompleted : s.load.1.playback.status.completed = false := h.not_completed
  refine ⟨⟨hplaying, h.free, ?_⟩, houtcome⟩
  intro hc
  rw [hcompleted] at hc
  cases hc

theorem IsIdle.toggle_fst (h : IsIdle c s) : s.toggle.1 = s.start.1 := by
  unfold Session.toggle
  rw [h.idle.started, if_neg Bool.false_ne_true]
  generalize s.start = result
  obtain ⟨s', outcome⟩ := result
  cases outcome <;> rfl

/-- An idle session stays idle as long as no trace is started. -/
theorem IsIdle.perform (h : IsIdle c s) {op : Operation}
    (hop : op.starts = true → ∃ e, Trace.read s.source = .error e) : IsIdle c (s.perform op) := by
  cases op with
  | setSource text => exact h.setSource text
  | start =>
    obtain ⟨e, hread⟩ := hop rfl
    obtain ⟨hidle, houtcome⟩ := h.load_of_error hread
    show IsIdle c s.start.1
    rw [start_of_not_loaded houtcome]
    exact hidle
  | toggle =>
    obtain ⟨e, hread⟩ := hop rfl
    obtain ⟨hidle, houtcome⟩ := h.load_of_error hread
    show IsIdle c s.toggle.1
    rw [h.toggle_fst, start_of_not_loaded houtcome]
    exact hidle
  | forward =>
    obtain ⟨e, hread⟩ := hop rfl
    obtain ⟨hidle, houtcome⟩ := h.load_of_error hread
    show IsIdle c s.forward.1
    rw [forward_of_not_loaded h.idle.started houtcome]
    exact hidle
  | back =>
    show IsIdle c s.back.1
    rw [h.back]
    exact h
  | reset => exact h.reset
  | pause => exact h.still s.playback.still_pause h.off
  | setSpeed ms => exact h.still ⟨rfl, rfl, id⟩ h.off
  | setTurbo on => exact h.still ⟨rfl, rfl, id⟩ h.off
  | drain => exact h.still ⟨rfl, rfl, id⟩ h.off
  | attend => exact h.still ⟨rfl, rfl, id⟩ h.off
  | move m =>
    obtain ⟨hstill, hstatus⟩ := Playback.still_move (w := Execution.workload) h.free h.off m
    refine h.still hstill ?_
    rw [hstatus]
    exact h.off
  | elapseTo time => exact h.still ⟨rfl, rfl, id⟩ h.off

theorem IsIdle.start_of_read (h : IsIdle c s) {t : Trace} (hread : Trace.read s.source = .ok t) :
    s.start = (⟨s.load.1.playback.play.1⟩, .ok .started) := by
  obtain ⟨-, houtcome⟩ := h.load_of_read hread
  unfold Session.start
  generalize s.load = result at houtcome ⊢
  obtain ⟨s', outcome⟩ := result
  cases houtcome
  rfl

/-- Going forward takes the first step of a run that is held up. -/
theorem IsIdle.forward_of_read (h : IsIdle c s) {t : Trace} (hread : Trace.read s.source = .ok t) :
    s.forward.1 = (Session.stepProgram ⟨s.load.1.playback.pause⟩).1 := by
  obtain ⟨-, houtcome⟩ := h.load_of_read hread
  unfold Session.forward
  rw [h.idle.started, if_neg Bool.false_ne_true]
  generalize s.load = loaded at houtcome ⊢
  obtain ⟨s', outcome⟩ := loaded
  cases houtcome
  show _ = (Session.stepProgram ⟨s'.playback.pause⟩).1
  simp only
  generalize Session.stepProgram ⟨s'.playback.pause⟩ = result
  obtain ⟨s'', outcome⟩ := result
  cases outcome <;> rfl

/-- With a trace to play the operations that start a run make the session play it. -/
theorem IsIdle.perform_of_read (hc : 0 < c.maxMicroSteps) (h : IsIdle c s) {t : Trace}
    (hread : Trace.read s.source = .ok t) {op : Operation} (hop : op.starts = true) :
    IsPlaying c t (s.perform op) (newlyCaptured s (s.perform op)) := by
  obtain ⟨hloaded, -⟩ := h.load_of_read hread
  -- loading captures nothing
  have hcaptures : s.load.1.execution.history.captures = s.execution.history.captures :=
    hloaded.playing.captures.trans h.idle.captures.symm
  have hstarted : IsPlaying c t s.start.1 (newlyCaptured s s.start.1) := by
    rw [h.start_of_read hread, newlyCaptured_congr hcaptures.symm]
    have hstill := s.load.1.playback.still_play
    exact hloaded.keep (hloaded.still hstill)
  cases op with
  | start => exact hstarted
  | toggle =>
    show IsPlaying c t s.toggle.1 (newlyCaptured s s.toggle.1)
    rw [h.toggle_fst]
    exact hstarted
  | forward =>
    show IsPlaying c t s.forward.1 (newlyCaptured s s.forward.1)
    rw [h.forward_of_read hread]
    -- the run is held up before the step, so no loop begins
    have hheld : IsPlaying c t ⟨s.load.1.playback.pause⟩ [] := hloaded.still ⟨rfl, rfl, id⟩
    have hstepped := hheld.touched hc
      (Playback.touched_stepForward Execution.instant_workload hheld.free
        (Session.patience ⟨s.load.1.playback.pause⟩ 0))
    have hnew : ∀ s', newlyCaptured s s' = newlyCaptured ⟨s.load.1.playback.pause⟩ s' :=
      newlyCaptured_congr hcaptures.symm
    rw [hnew]
    exact hstepped
  | setSource text => cases hop
  | back => cases hop
  | reset => cases hop
  | pause => cases hop
  | setSpeed ms => cases hop
  | setTurbo on => cases hop
  | drain => cases hop
  | attend => cases hop
  | move m => cases hop
  | elapseTo time => cases hop

end Idle

/-! ## What happens without the user -/

/-- Whether an operation happens without the user. -/
def Operation.isOwn : Operation → Bool
  | attend => true
  | move _ => true
  | elapseTo _ => true
  | _ => false

/-- Playback that goes on of itself makes one move after the other. The induction is on the moves that
it may make. -/
theorem exists_run_advance (holds : Playback Execution → Bool) (deadline : Option Nat) :
    ∀ (fuel : Nat) (p : Playback Execution), ∃ ops : List Operation,
      (∀ op ∈ ops, op.isOwn = true)
      ∧ (⟨p.advance Execution.workload holds deadline fuel⟩ : Session) = run ⟨p⟩ ops
  | 0, p => ⟨[], by simp, rfl⟩
  | fuel + 1, p => by
    -- with nothing to do before the deadline the clock goes on to it
    have helapse : ∃ ops : List Operation, (∀ op ∈ ops, op.isOwn = true)
        ∧ (⟨deadline.elim p p.elapseTo⟩ : Session) = run ⟨p⟩ ops := by
      cases deadline with
      | none => exact ⟨[], by simp, rfl⟩
      | some time => exact ⟨[.elapseTo time], by simp [Operation.isOwn], rfl⟩
    unfold Playback.advance
    split
    · exact ⟨[], by simp, rfl⟩
    · split
      next m _ =>
        obtain ⟨ops, hown, hrun⟩ :=
          exists_run_advance holds deadline fuel (p.move Execution.workload m)
        exact ⟨.move m :: ops, by simpa [Operation.isOwn] using hown, hrun⟩
      next time _ =>
        split
        · obtain ⟨ops, hown, hrun⟩ := exists_run_advance holds deadline fuel (p.elapseTo time)
          exact ⟨.elapseTo time :: ops, by simpa [Operation.isOwn] using hown, hrun⟩
        · exact helapse
      next => exact helapse

/-- Letting time pass is a run of operations that happen without the user. -/
theorem exists_run_elapse (s : Session) (ms : Nat) : ∃ ops : List Operation,
    (∀ op ∈ ops, op.isOwn = true) ∧ s.elapse ms = s.run ops :=
  exists_run_advance _ _ _ s.playback

/-- So is waiting for playback to end. -/
theorem exists_run_await (s : Session) (limitMs : Option Nat) : ∃ ops : List Operation,
    (∀ op ∈ ops, op.isOwn = true) ∧ (s.await limitMs).1 = s.run ops := by
  unfold Session.await Playback.await
  cases s.playback.awaitable with
  | none => exact ⟨[], by simp, rfl⟩
  | some latest =>
    obtain ⟨ops, hown, hrun⟩ := exists_run_advance (fun p => !p.hasLoop latest)
      (limitMs.map (s.playback.clock + ·)) (s.patience (limitMs.getD 0))
      { s.playback with awaitable := none }
    exact ⟨.attend :: ops, by simpa [Operation.isOwn] using hown, hrun⟩

end Session

end Retrace
